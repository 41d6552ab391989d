import Zpc.Interleaving

/-!
# The work-stealing scheduler

`AsyncScheduler` of `AsyncScheduler.hpp`: enqueuing threads, the worker loop with its
queues, stealing and parking, `wait`, and task nodes linked by dependency counters.
The queues are the linearizable bags that the queue library provides: an element is
taken in any order, taking fails only on an empty queue, and storing may fail at any
time. The condition variable behind `Atomic::wait` is its counter and its futex.
Pausing and stopping the scheduler are left out.
-/
namespace Zpc.AsyncScheduler
open Interleaving

inductive TaskKind
  | normalFn
  | onceCoro
  | taskNode (node : ℕ)
  deriving DecidableEq

def TaskKind.node? : TaskKind → Option ℕ
  | .taskNode node => some node
  | _ => none

/-- A task handle with the number of its `enqueue_` call and of the task that made the call. -/
structure Task where
  id : ℕ
  parent : Option ℕ
  kind : TaskKind
  deriving DecidableEq

inductive NodeState
  | idle
  | planned
  | scheduled
  | running
  | done
  deriving DecidableEq

inductive Call
  | enqueue (kind : TaskKind) (workerId : Option ℕ)
  | schedule (node : ℕ)
  | wait
  deriving DecidableEq

/-- The workers, at least one, the links between task nodes, and the calls that task bodies may make. -/
structure Setting where
  numWorkers : ℕ
  numWorkers_pos : 0 < numWorkers
  succs : ℕ → List ℕ := fun _ => []
  preds : ℕ → List ℕ := fun _ => []
  allowed : Call → Bool := fun _ => true

def oneWorker : Setting := {numWorkers := 1, numWorkers_pos := Nat.one_pos}

/-- The scheduler's fields, with a record of the run: `enqueue_` calls made, which task made
which, calls returned and counted, tasks run and discounted, nodes enqueued and completed. -/
structure Shared where
  status : ℕ → ℕ := fun _ => 2
  seq : ℕ → ℕ := fun _ => 0
  asleep : ℕ → Bool := fun _ => false
  localQueues : List (ℕ × Task) := []
  globalQueue : List Task := []
  remainingJobs : ℤ := 0
  stealCounter : UInt32 := 0
  nodeState : ℕ → NodeState := fun _ => .idle
  numDeps : ℕ → ℤ := fun _ => 0
  nextId : ℕ := 0
  spawned : List (ℕ × ℕ) := []
  returned : List ℕ := []
  added : List ℕ := []
  extra : ℕ := 0
  finished : List ℕ := []
  subbed : List ℕ := []
  enqueued : List ℕ := []
  completed : List ℕ := []

inductive Frame
  | call (cur parent : Option ℕ) (call : Call)
  | returned (id : ℕ)
  | enqueue (cur : Option ℕ) (task : Task) (workerId : Option ℕ)
  | tryLocal (task : Task) (worker : ℕ)
  | displace (task : Task) (worker : ℕ)
  | pushDisplaced (displaced task : Task) (worker : ℕ)
  | addLocal (task : Task) (worker : ℕ)
  | tryGlobal (task : Task)
  | addGlobal (task : Task)
  | storeStatus (worker : ℕ)
  | wakeAny (worker : ℕ)
  | notify (worker : ℕ)
  | futexWake (worker : ℕ)
  | schedule (cur parent : Option ℕ) (node : ℕ)
  | loadDeps (cur parent : Option ℕ) (node : ℕ)
  | waitLoop (returned : List ℕ)
  | workerLoop (worker : ℕ)
  | scanLocal (worker : ℕ)
  | scanGlobal (worker : ℕ)
  | steal (worker : ℕ)
  | trySteal (worker : ℕ) (victims : List ℕ)
  | announce (worker : ℕ)
  | await (worker : ℕ)
  | snapshot (worker : ℕ)
  | futexWait (worker epoch : ℕ)
  | asleep (worker : ℕ)
  | process (worker : ℕ) (task : Task)
  | body (worker : ℕ) (task : Task)
  | markDone (worker : ℕ) (task : Task) (node : ℕ)
  | release (worker : ℕ) (task : Task) (succs : List ℕ)
  | addExtra (task : Task)
  | sub (task : Task)
  deriving DecidableEq

/-- What the code leaves open: the element a queue yields, a full queue, what a task body does next. -/
inductive Choice
  | pick (place : ℕ)
  | full
  | call (call : Call)
  | finish (done : Bool)

namespace Shared
/-- A further `enqueue_` call, made by `parent` if that is a task. -/
def spawn (m : Shared) (parent : Option ℕ) : Shared :=
  {m with nextId := m.nextId + 1, spawned := (parent.map fun p => (p, m.nextId)).toList ++ m.spawned}

/-- A task node handed to `enqueue_` for its first resumption is recorded. -/
def handIn (m : Shared) (kind : TaskKind) : Shared := {m with enqueued := kind.node?.toList ++ m.enqueued}

def setStatus (m : Shared) (worker status : ℕ) : Shared :=
  {m with status := Function.update m.status worker status}

def setNode (m : Shared) (node : ℕ) (state : NodeState) : Shared :=
  {m with nodeState := Function.update m.nodeState node state}

end Shared

/-- `try_dequeue` on the queue of one worker: `none` for a choice that is not possible. -/
def dequeueLocal (queues : List (ℕ × Task)) (worker : ℕ) : Choice → Option (Option (Task × List (ℕ × Task)))
  | .pick k => match queues[k]? with
    | some (owner, task) => if owner = worker then some (some (task, queues.eraseIdx k)) else none
    | none => none
  | _ => if ∀ e ∈ queues, e.1 ≠ worker then some none else none

def dequeueGlobal (queue : List Task) : Choice → Option (Option (Task × List Task))
  | .pick k => queue[k]?.map fun task => some (task, queue.eraseIdx k)
  | _ => if queue = [] then some none else none

def victims (numWorkers start thief : ℕ) : List ℕ :=
  ((List.range numWorkers).map fun offset => (start + offset) % numWorkers).filter (· ≠ thief)

/-- A worker that has a task from its own queue or another's runs it, else goes on with `next`. -/
def runLocal (m : Shared) (worker owner : ℕ) (next : List Frame) (x : Choice) : Option (Shared × List Frame) :=
  (dequeueLocal m.localQueues owner x).map fun
    | some (task, queues) => ({m with localQueues := queues}, [.process worker task, .workerLoop worker])
    | none => (m, next)

def runGlobal (m : Shared) (worker : ℕ) (x : Choice) : Option (Shared × List Frame) :=
  (dequeueGlobal m.globalQueue x).map fun
    | some (task, queue) => ({m with globalQueue := queue}, [.process worker task, .workerLoop worker])
    | none => (m, [.steal worker])

/-- Make room in a worker's full queue by moving one of its tasks to the global queue. -/
def runDisplace (m : Shared) (task : Task) (worker : ℕ) (x : Choice) : Option (Shared × List Frame) :=
  (dequeueLocal m.localQueues worker x).map fun
    | some (displaced, queues) => ({m with localQueues := queues}, [.pushDisplaced displaced task worker])
    | none => (m, [.tryLocal task worker])

def runCall (m : Shared) (cur parent : Option ℕ) : Call → Shared × List Frame
  | .enqueue kind workerId =>
      ((m.spawn parent).handIn kind, [.enqueue cur ⟨m.nextId, parent, kind⟩ workerId, .returned m.nextId])
  | .schedule node => (m, [.schedule cur parent node])
  | .wait => (m, [.waitLoop m.returned])

/-- The end of a task's body: a node whose coroutine is suspended is enqueued once more. -/
def runFinish (m : Shared) (worker : ℕ) (task : Task) (done : Bool) : Shared × List Frame :=
  match task.kind with
  | .taskNode node =>
    if done then ({m with finished := task.id :: m.finished}, [.markDone worker task node])
    else ({m.spawn (some task.id) with finished := task.id :: m.finished},
      [.enqueue (some worker) ⟨m.nextId, some task.id, .taskNode node⟩ (some worker), .returned m.nextId,
        .addExtra task])
  | _ => ({m with finished := task.id :: m.finished}, [.sub task])

def code (S : Setting) : Code Shared Frame Choice := fun m f x => match f with
  | .call cur parent call => some (runCall m cur parent call)
  | .returned id => some ({m with returned := id :: m.returned}, [])
  | .enqueue cur task (some worker) =>
      if worker < S.numWorkers ∧ (cur = some worker ∨ m.status worker = 0) then some (m, [.tryLocal task worker])
      else some (m, [.tryGlobal task])
  | .enqueue _ task none => some (m, [.tryGlobal task])
  | .tryLocal task worker => match x with
    | .full => some (m, [.displace task worker])
    | _ => some ({m with localQueues := m.localQueues ++ [(worker, task)]}, [.addLocal task worker])
  | .displace task worker => runDisplace m task worker x
  | .pushDisplaced displaced task worker => match x with
    | .full => some (m, [.pushDisplaced displaced task worker])
    | _ => some ({m with globalQueue := m.globalQueue ++ [displaced]}, [.wakeAny 0, .tryLocal task worker])
  | .addLocal task worker =>
      some ({m with remainingJobs := m.remainingJobs + 1, added := task.id :: m.added},
        if S.numWorkers > 1 then [.storeStatus worker, .wakeAny 0] else [.storeStatus worker])
  | .tryGlobal task => match x with
    | .full => some (m, [.tryGlobal task])
    | _ => some ({m with globalQueue := m.globalQueue ++ [task]}, [.addGlobal task])
  | .addGlobal task =>
      some ({m with remainingJobs := m.remainingJobs + 1, added := task.id :: m.added}, [.wakeAny 0])
  | .storeStatus worker => some (m.setStatus worker 2, [.notify worker])
  | .wakeAny worker =>
      if worker < S.numWorkers then
        if m.status worker = 0 then some (m.setStatus worker 2, [.notify worker])
        else some (m, [.wakeAny (worker + 1)])
      else some ({m with stealCounter := m.stealCounter + 1}, [.notify (m.stealCounter.toNat % S.numWorkers)])
  | .notify worker => some ({m with seq := Function.update m.seq worker (m.seq worker + 1)}, [.futexWake worker])
  | .futexWake worker => some ({m with asleep := Function.update m.asleep worker false}, [])
  | .schedule cur parent node =>
      if m.nodeState node = .idle then some (m.setNode node .planned, [.loadDeps cur parent node]) else some (m, [])
  | .loadDeps cur parent node =>
      if m.numDeps node ≠ 0 then some (m, (S.preds node).map (.schedule cur parent))
      else some (runCall m cur parent (.enqueue (.taskNode node) none))
  | .waitLoop returned =>
      if m.remainingJobs = 0 then some (m, []) else some (m, [.wakeAny 0, .waitLoop returned])
  | .workerLoop worker => some (m.setStatus worker 1, [.scanLocal worker])
  | .scanLocal worker => runLocal m worker worker [.scanGlobal worker] x
  | .scanGlobal worker => runGlobal m worker x
  | .steal worker =>
      if S.numWorkers ≤ 1 then some (m, [.announce worker])
      else some ({m with stealCounter := m.stealCounter + 1},
        [.trySteal worker (victims S.numWorkers (m.stealCounter.toNat % S.numWorkers) worker)])
  | .trySteal worker [] => some (m, [.announce worker])
  | .trySteal worker (victim :: rest) => runLocal m worker victim [.trySteal worker rest] x
  | .announce worker =>
      if m.status worker = 1 then some (m.setStatus worker 0, [.await worker]) else some (m, [.workerLoop worker])
  | .await worker => if m.status worker ≠ 0 then some (m, [.workerLoop worker]) else some (m, [.snapshot worker])
  | .snapshot worker => some (m, [.futexWait worker (m.seq worker)])
  | .futexWait worker epoch =>
      if m.seq worker = epoch then some ({m with asleep := Function.update m.asleep worker true}, [.asleep worker])
      else some (m, [.await worker])
  | .asleep worker => if m.asleep worker then none else some (m, [.await worker])
  | .process worker task => match task.kind with
    | .taskNode node => some (m.setNode node .running, [.body worker task])
    | _ => some (m, [.body worker task])
  | .body worker task => match x with
    | .call call =>
      if S.allowed call then some (m, [.call (some worker) (some task.id) call, .body worker task]) else none
    | .finish done => some (runFinish m worker task done)
    | _ => none
  | .markDone worker task node =>
      some ({m.setNode node .done with completed := node :: m.completed}, [.release worker task (S.succs node)])
  | .release _ task [] => some (m, [.sub task])
  | .release worker task (succ :: rest) =>
      let m' := {m with numDeps := Function.update m.numDeps succ (m.numDeps succ - 1)}
      if m.numDeps succ = 1 then
        some ((m'.spawn (some task.id)).handIn (.taskNode succ),
          [.enqueue (some worker) ⟨m.nextId, some task.id, .taskNode succ⟩ none, .returned m.nextId,
            .release worker task rest])
      else some (m', [.release worker task rest])
  | .addExtra task => some ({m with remainingJobs := m.remainingJobs + 1, extra := m.extra + 1}, [.sub task])
  | .sub task => some ({m with remainingJobs := m.remainingJobs - 1, subbed := task.id :: m.subbed}, [])

/-- What one action does, branch by branch. -/
inductive Acts (S : Setting) (m : Shared) : Frame → Shared → List Frame → Prop
  | callEnqueue (cur parent kind workerId) : Acts S m (.call cur parent (.enqueue kind workerId))
      ((m.spawn parent).handIn kind) [.enqueue cur ⟨m.nextId, parent, kind⟩ workerId, .returned m.nextId]
  | callSchedule (cur parent node) :
      Acts S m (.call cur parent (.schedule node)) m [.schedule cur parent node]
  | callWait (cur parent) : Acts S m (.call cur parent .wait) m [.waitLoop m.returned]
  | returned (id) : Acts S m (.returned id) {m with returned := id :: m.returned} []
  | keepLocal (cur task worker) (hw : worker < S.numWorkers) :
      Acts S m (.enqueue cur task (some worker)) m [.tryLocal task worker]
  | notLocal (cur task workerId) : Acts S m (.enqueue cur task workerId) m [.tryGlobal task]
  | pushLocal (task worker) : Acts S m (.tryLocal task worker)
      {m with localQueues := m.localQueues ++ [(worker, task)]} [.addLocal task worker]
  | fullLocal (task worker) : Acts S m (.tryLocal task worker) m [.displace task worker]
  | takeDisplaced (task worker displaced queues) (hq : m.localQueues.Perm ((worker, displaced) :: queues)) :
      Acts S m (.displace task worker) {m with localQueues := queues} [.pushDisplaced displaced task worker]
  | nothingDisplaced (task worker) : Acts S m (.displace task worker) m [.tryLocal task worker]
  | pushDisplaced (displaced task worker) : Acts S m (.pushDisplaced displaced task worker)
      {m with globalQueue := m.globalQueue ++ [displaced]} [.wakeAny 0, .tryLocal task worker]
  | fullDisplaced (displaced task worker) :
      Acts S m (.pushDisplaced displaced task worker) m [.pushDisplaced displaced task worker]
  | addLocal (task worker) : Acts S m (.addLocal task worker)
      {m with remainingJobs := m.remainingJobs + 1, added := task.id :: m.added} [.storeStatus worker]
  | addLocalWake (task worker) : Acts S m (.addLocal task worker)
      {m with remainingJobs := m.remainingJobs + 1, added := task.id :: m.added} [.storeStatus worker, .wakeAny 0]
  | pushGlobal (task) :
      Acts S m (.tryGlobal task) {m with globalQueue := m.globalQueue ++ [task]} [.addGlobal task]
  | fullGlobal (task) : Acts S m (.tryGlobal task) m [.tryGlobal task]
  | addGlobal (task) : Acts S m (.addGlobal task)
      {m with remainingJobs := m.remainingJobs + 1, added := task.id :: m.added} [.wakeAny 0]
  | storeStatus (worker) : Acts S m (.storeStatus worker) (m.setStatus worker 2) [.notify worker]
  | wakeParked (worker) (hw : worker < S.numWorkers) (hs : m.status worker = 0) :
      Acts S m (.wakeAny worker) (m.setStatus worker 2) [.notify worker]
  | wakeNext (worker) (hw : worker < S.numWorkers) (hs : m.status worker ≠ 0) :
      Acts S m (.wakeAny worker) m [.wakeAny (worker + 1)]
  | wakeVictim (worker victim) (hw : S.numWorkers ≤ worker) :
      Acts S m (.wakeAny worker) {m with stealCounter := m.stealCounter + 1} [.notify victim]
  | notify (worker) : Acts S m (.notify worker)
      {m with seq := Function.update m.seq worker (m.seq worker + 1)} [.futexWake worker]
  | futexWake (worker) :
      Acts S m (.futexWake worker) {m with asleep := Function.update m.asleep worker false} []
  | scheduleIdle (cur parent node) (hs : m.nodeState node = .idle) :
      Acts S m (.schedule cur parent node) (m.setNode node .planned) [.loadDeps cur parent node]
  | scheduleAgain (cur parent node) (hs : m.nodeState node ≠ .idle) : Acts S m (.schedule cur parent node) m []
  | hasDeps (cur parent node) (hd : m.numDeps node ≠ 0) :
      Acts S m (.loadDeps cur parent node) m ((S.preds node).map (.schedule cur parent))
  | noDeps (cur parent node) (hd : m.numDeps node = 0) : Acts S m (.loadDeps cur parent node)
      ((m.spawn parent).handIn (.taskNode node))
      [.enqueue cur ⟨m.nextId, parent, .taskNode node⟩ none, .returned m.nextId]
  | waitDone (returned) (hr : m.remainingJobs = 0) : Acts S m (.waitLoop returned) m []
  | waitMore (returned) (hr : m.remainingJobs ≠ 0) :
      Acts S m (.waitLoop returned) m [.wakeAny 0, .waitLoop returned]
  | workerLoop (worker) : Acts S m (.workerLoop worker) (m.setStatus worker 1) [.scanLocal worker]
  | takeLocal (worker task queues) (hq : m.localQueues.Perm ((worker, task) :: queues)) :
      Acts S m (.scanLocal worker) {m with localQueues := queues} [.process worker task, .workerLoop worker]
  | localEmpty (worker) (hq : ∀ e ∈ m.localQueues, e.1 ≠ worker) :
      Acts S m (.scanLocal worker) m [.scanGlobal worker]
  | takeGlobal (worker task queue) (hq : m.globalQueue.Perm (task :: queue)) :
      Acts S m (.scanGlobal worker) {m with globalQueue := queue} [.process worker task, .workerLoop worker]
  | globalEmpty (worker) (hq : m.globalQueue = []) : Acts S m (.scanGlobal worker) m [.steal worker]
  | stealAlone (worker) : Acts S m (.steal worker) m [.announce worker]
  | steal (worker victims) :
      Acts S m (.steal worker) {m with stealCounter := m.stealCounter + 1} [.trySteal worker victims]
  | stealFailed (worker) : Acts S m (.trySteal worker []) m [.announce worker]
  | takeStolen (worker victim rest task queues) (hq : m.localQueues.Perm ((victim, task) :: queues)) :
      Acts S m (.trySteal worker (victim :: rest)) {m with localQueues := queues}
        [.process worker task, .workerLoop worker]
  | victimEmpty (worker victim rest) : Acts S m (.trySteal worker (victim :: rest)) m [.trySteal worker rest]
  | announce (worker) (hs : m.status worker = 1) : Acts S m (.announce worker) (m.setStatus worker 0) [.await worker]
  | announceFailed (worker) (hs : m.status worker ≠ 1) : Acts S m (.announce worker) m [.workerLoop worker]
  | woken (worker) (hs : m.status worker ≠ 0) : Acts S m (.await worker) m [.workerLoop worker]
  | unchanged (worker) (hs : m.status worker = 0) : Acts S m (.await worker) m [.snapshot worker]
  | snapshot (worker) : Acts S m (.snapshot worker) m [.futexWait worker (m.seq worker)]
  | fallAsleep (worker) : Acts S m (.futexWait worker (m.seq worker))
      {m with asleep := Function.update m.asleep worker true} [.asleep worker]
  | epochPassed (worker epoch) (hs : m.seq worker ≠ epoch) : Acts S m (.futexWait worker epoch) m [.await worker]
  | wakeUp (worker) (hs : m.asleep worker = false) : Acts S m (.asleep worker) m [.await worker]
  | processNode (worker task node) (hk : task.kind = .taskNode node) :
      Acts S m (.process worker task) (m.setNode node .running) [.body worker task]
  | processOther (worker task) (hk : ∀ node, task.kind ≠ .taskNode node) :
      Acts S m (.process worker task) m [.body worker task]
  | bodyCall (worker task call) (ha : S.allowed call = true) :
      Acts S m (.body worker task) m [.call (some worker) (some task.id) call, .body worker task]
  | finishNode (worker task node) (hk : task.kind = .taskNode node) : Acts S m (.body worker task)
      {m with finished := task.id :: m.finished} [.markDone worker task node]
  | suspendNode (worker task node) (hk : task.kind = .taskNode node) : Acts S m (.body worker task)
      {m.spawn (some task.id) with finished := task.id :: m.finished}
      [.enqueue (some worker) ⟨m.nextId, some task.id, .taskNode node⟩ (some worker), .returned m.nextId, .addExtra task]
  | finishOther (worker task) (hk : ∀ node, task.kind ≠ .taskNode node) : Acts S m (.body worker task)
      {m with finished := task.id :: m.finished} [.sub task]
  | markDone (worker task node) : Acts S m (.markDone worker task node)
      {m.setNode node .done with completed := node :: m.completed} [.release worker task (S.succs node)]
  | released (worker task) : Acts S m (.release worker task []) m [.sub task]
  | releaseLast (worker task succ rest) (hd : m.numDeps succ = 1) : Acts S m (.release worker task (succ :: rest))
      (({m with numDeps := Function.update m.numDeps succ (m.numDeps succ - 1)}.spawn (some task.id)).handIn
        (.taskNode succ))
      [.enqueue (some worker) ⟨m.nextId, some task.id, .taskNode succ⟩ none, .returned m.nextId,
        .release worker task rest]
  | releaseDep (worker task succ rest) (hd : m.numDeps succ ≠ 1) : Acts S m (.release worker task (succ :: rest))
      {m with numDeps := Function.update m.numDeps succ (m.numDeps succ - 1)} [.release worker task rest]
  | addExtra (task) : Acts S m (.addExtra task)
      {m with remainingJobs := m.remainingJobs + 1, extra := m.extra + 1} [.sub task]
  | sub (task) : Acts S m (.sub task)
      {m with remainingJobs := m.remainingJobs - 1, subbed := task.id :: m.subbed} []

variable {S : Setting} {m m' : Shared} {f : Frame} {x : Choice} {fs : List Frame}

theorem dequeueLocal_some {queues : List (ℕ × Task)} {worker : ℕ} {r : Option (Task × List (ℕ × Task))}
    (h : dequeueLocal queues worker x = some r) :
    (∃ task rest, r = some (task, rest) ∧ queues.Perm ((worker, task) :: rest)) ∨
      r = none ∧ ∀ e ∈ queues, e.1 ≠ worker := by
  cases x with
  | pick k =>
    simp only [dequeueLocal] at h
    split at h
    · rename_i owner task hk
      split_ifs at h with hw
      obtain rfl := hw
      obtain ⟨hl, he⟩ := List.getElem?_eq_some_iff.mp hk
      exact .inl ⟨task, _, (Option.some.inj h).symm, by simpa [he] using (List.getElem_cons_eraseIdx_perm hl).symm⟩
    · cases h
  | _ =>
    simp only [dequeueLocal] at h
    split_ifs at h with hq
    exact .inr ⟨(Option.some.inj h).symm, hq⟩

theorem dequeueGlobal_some {queue : List Task} {r : Option (Task × List Task)} (h : dequeueGlobal queue x = some r) :
    (∃ task rest, r = some (task, rest) ∧ queue.Perm (task :: rest)) ∨ r = none ∧ queue = [] := by
  cases x with
  | pick k =>
    obtain ⟨task, hk, rfl⟩ := Option.map_eq_some_iff.mp h
    obtain ⟨hl, he⟩ := List.getElem?_eq_some_iff.mp hk
    exact .inl ⟨task, _, rfl, by simpa [he] using (List.getElem_cons_eraseIdx_perm hl).symm⟩
  | _ =>
    simp only [dequeueGlobal] at h
    split_ifs at h with hq
    exact .inr ⟨(Option.some.inj h).symm, hq⟩

theorem acts_of_runLocal {worker owner : ℕ} {next : List Frame} (h : runLocal m worker owner next x = some (m', fs))
    (htake : ∀ task queues, m.localQueues.Perm ((owner, task) :: queues) →
      Acts S m f {m with localQueues := queues} [.process worker task, .workerLoop worker])
    (hempty : (∀ e ∈ m.localQueues, e.1 ≠ owner) → Acts S m f m next) : Acts S m f m' fs := by
  obtain ⟨r, hr, h⟩ := Option.map_eq_some_iff.mp h
  rcases dequeueLocal_some hr with ⟨task, queues, rfl, hq⟩ | ⟨rfl, hq⟩
  · cases h
    exact htake task queues hq
  · cases h
    exact hempty hq

theorem acts_of_runGlobal {worker : ℕ} (h : runGlobal m worker x = some (m', fs)) :
    Acts S m (.scanGlobal worker) m' fs := by
  obtain ⟨r, hr, h⟩ := Option.map_eq_some_iff.mp h
  rcases dequeueGlobal_some hr with ⟨task, queue, rfl, hq⟩ | ⟨rfl, hq⟩
  · cases h
    exact .takeGlobal worker task queue hq
  · cases h
    exact .globalEmpty worker hq

theorem acts_of_runDisplace {task : Task} {worker : ℕ} (h : runDisplace m task worker x = some (m', fs)) :
    Acts S m (.displace task worker) m' fs := by
  obtain ⟨r, hr, h⟩ := Option.map_eq_some_iff.mp h
  rcases dequeueLocal_some hr with ⟨displaced, queues, rfl, hq⟩ | ⟨rfl, hq⟩
  · cases h
    exact .takeDisplaced task worker displaced queues hq
  · cases h
    exact .nothingDisplaced task worker

theorem acts_of_runFinish {worker : ℕ} {task : Task} {done : Bool} (h : runFinish m worker task done = (m', fs)) :
    Acts S m (.body worker task) m' fs := by
  unfold runFinish at h
  split at h
  · rename_i node hk
    split_ifs at h
    · cases h
      exact .finishNode worker task node hk
    · cases h
      exact .suspendNode worker task node hk
  · rename_i hk
    cases h
    exact .finishOther worker task hk

theorem acts_of_runCall {cur parent : Option ℕ} {call : Call} (h : runCall m cur parent call = (m', fs)) :
    Acts S m (.call cur parent call) m' fs := by
  cases call <;> cases h <;> constructor

theorem acts_of_code (h : code S m f x = some (m', fs)) : Acts S m f m' fs := by
  cases f with
  | call cur parent call => exact acts_of_runCall (Option.some.inj h)
  | enqueue cur task workerId =>
    cases workerId with
    | none => cases h; exact .notLocal cur task none
    | some worker =>
      simp only [code] at h
      split_ifs at h with hw <;> cases h
      · exact .keepLocal cur task worker hw.1
      · exact .notLocal cur task _
  | displace task worker => exact acts_of_runDisplace h
  | addLocal task worker =>
    simp only [code] at h
    split_ifs at h <;> cases h
    · exact .addLocalWake task worker
    · exact .addLocal task worker
  | scanLocal worker => exact acts_of_runLocal h (.takeLocal worker) (.localEmpty worker)
  | scanGlobal worker => exact acts_of_runGlobal h
  | trySteal worker victims =>
    cases victims with
    | nil => cases h; exact .stealFailed worker
    | cons victim rest => exact acts_of_runLocal h (.takeStolen worker victim rest) fun _ => .victimEmpty worker victim rest
  | futexWait worker epoch =>
    simp only [code] at h
    split_ifs at h with hs <;> cases h
    · subst hs
      exact .fallAsleep worker
    · exact .epochPassed worker epoch hs
  | asleep worker =>
    simp only [code] at h
    split_ifs at h with hs
    cases h
    exact .wakeUp worker (by simpa using hs)
  | process worker task =>
    simp only [code] at h
    split at h <;> cases h
    · rename_i node hk
      exact .processNode worker task node hk
    · rename_i hk
      exact .processOther worker task hk
  | body worker task =>
    simp only [code] at h
    split at h
    · split_ifs at h with ha
      cases h
      exact .bodyCall worker task _ ha
    · exact acts_of_runFinish (Option.some.inj h)
    · cases h
  | wakeAny worker =>
    simp only [code] at h
    split_ifs at h with hw hs <;> cases h
    · exact .wakeParked worker hw hs
    · exact .wakeNext worker hw hs
    · exact .wakeVictim worker _ (Nat.le_of_not_lt hw)
  | loadDeps cur parent node =>
    simp only [code] at h
    split_ifs at h with hd <;> cases h
    · exact .hasDeps cur parent node hd
    · exact .noDeps cur parent node (not_not.mp hd)
  | release worker task succs =>
    cases succs with
    | nil => cases h; exact .released worker task
    | cons succ rest =>
      simp only [code] at h
      split_ifs at h with hd <;> cases h
      · exact .releaseLast worker task succ rest hd
      · exact .releaseDep worker task succ rest hd
  | await worker =>
    simp only [code] at h
    split_ifs at h with hs <;> cases h
    · exact .woken worker hs
    · exact .unchanged worker (not_not.mp hs)
  | _ =>
    simp only [code] at h
    try split at h
    all_goals
      cases h
      constructor
      try assumption

/-- The workers at the head of their loops, beside any number of threads about to make any calls. -/
def start (S : Setting) (numDeps : ℕ → ℤ) (programs : List (List Call)) : Config Shared Frame :=
  ⟨{numDeps := numDeps},
    (List.range S.numWorkers).map (fun worker => [.workerLoop worker]) ++ programs.map (·.map (.call none none))⟩

theorem mem_start {numDeps : ℕ → ℤ} {programs : List (List Call)} {k : List Frame}
    (hk : k ∈ (start S numDeps programs).threads) :
    (∃ worker < S.numWorkers, k = [.workerLoop worker]) ∨ ∃ p ∈ programs, k = p.map (.call none none) := by
  rcases List.mem_append.mp hk with hk | hk
  · obtain ⟨worker, hw, rfl⟩ := List.mem_map.mp hk
    exact .inl ⟨worker, List.mem_range.mp hw, rfl⟩
  · obtain ⟨p, hp, rfl⟩ := List.mem_map.mp hk
    exact .inr ⟨p, hp, rfl⟩

theorem frame_start {numDeps : ℕ → ℤ} {programs : List (List Call)} (hf : f ∈ (start S numDeps programs).frames) :
    (∃ worker < S.numWorkers, f = .workerLoop worker) ∨ ∃ p ∈ programs, ∃ call ∈ p, f = .call none none call := by
  obtain ⟨k, hk, hf⟩ := List.mem_flatten.mp hf
  rcases mem_start hk with ⟨worker, hw, rfl⟩ | ⟨p, hp, rfl⟩
  · exact .inl ⟨worker, hw, List.mem_singleton.mp hf⟩
  · obtain ⟨call, hc, rfl⟩ := List.mem_map.mp hf
    exact .inr ⟨p, hp, call, hc, rfl⟩

theorem total_start {numDeps : ℕ → ℤ} {programs : List (List Call)} {g : Frame → ℕ}
    (hw : ∀ worker, g (.workerLoop worker) = 0) (hc : ∀ call, g (.call none none call) = 0) :
    (start S numDeps programs).total g = 0 := by
  refine List.sum_eq_zero fun n hn => ?_
  obtain ⟨f, hf, rfl⟩ := List.mem_map.mp hn
  rcases frame_start hf with ⟨worker, _, rfl⟩ | ⟨p, _, call, _, rfl⟩
  · exact hw worker
  · exact hc call

end Zpc.AsyncScheduler
