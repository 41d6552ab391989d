import Zpc.AsyncRuntimeEvent

/-!
# Submissions of the asynchronous runtime

`AsyncRuntime` of `AsyncRuntime.hpp`: `submit`, `dispatch` and `resume` with the callbacks
on prerequisite events, the inline, native queue and thread pool executors, and `finalize`.
The critical sections of an event are single actions here. The event of a submission is
completed by the runtime only. Executors stay registered, the pool is not shut down, and
its futex is left out since its workers look at the queue again after a timeout.
-/
namespace Zpc.AsyncRuntime
open Interleaving

inductive Event
  | created (event : ℕ)
  | submission (id : ℕ)
  deriving DecidableEq

inductive Executor
  | inlineHost
  | nativeQueue
  | threadPool
  deriving DecidableEq

structure Submission where
  executor : Executor := .inlineHost
  prerequisites : List Event := []
  cancellation : Option ℕ := none
  stopOnPrerequisiteFailure : Bool := true
  deriving DecidableEq

inductive AsyncPollStatus
  | suspend
  | completed
  | cancelled
  | failed
  deriving DecidableEq

def AsyncPollStatus.taskStatus : AsyncPollStatus → AsyncTaskStatus
  | .suspend => .suspended
  | .completed => .completed
  | .cancelled => .cancelled
  | .failed => .failed

/-- What is stored at an event: the callback of a submission that waits for it, or a user's. -/
inductive Callback
  | prerequisite (event : Event) (id : ℕ)
  | other (callback : ℕ)
  deriving DecidableEq

inductive Call
  | submit (submission : Submission)
  | resume (id : ℕ)
  | requestStop (token : ℕ)
  | complete (event : ℕ) (status : AsyncTaskStatus)
  | onComplete (event : Event) (callback : ℕ)
  deriving DecidableEq

/-- The events, the submission states with their dependency states, the stop tokens and the pool's
queue, with a record of the run: submissions whose handle was returned, how often each step was
executed, and the resumes that return `true` with that number when they read the status. -/
structure Runtime where
  status : Event → AsyncTaskStatus := fun _ => .pending
  callbacks : List (Event × Callback) := []
  nextSubmissionId : ℕ := 0
  submissions : ℕ → Submission := fun _ => {}
  inFlight : ℕ → Bool := fun _ => false
  remaining : ℕ → ℤ := fun _ => 0
  failed : ℕ → Bool := fun _ => false
  cancelled : ℕ → Bool := fun _ => false
  stopped : ℕ → Bool := fun _ => false
  queue : List ℕ := []
  handles : ℕ → Bool := fun _ => false
  executions : ℕ → ℕ := fun _ => 0
  resumed : List (ℕ × ℕ) := []

inductive Frame
  | call (call : Call)
  | register (id : ℕ) (prerequisites : List Event)
  | returned (id : ℕ)
  | invoke (callbacks : List Callback)
  | loadPrerequisite (event : Event) (id : ℕ)
  | storeFailed (id : ℕ)
  | storeCancelled (id : ℕ)
  | countDown (id : ℕ)
  | loadFailed (id : ℕ)
  | loadCancelled (id : ℕ)
  | markFailed (id : ℕ)
  | markCancelled (id : ℕ)
  | loadStatus (id : ℕ)
  | dispatch (id : ℕ) (resume : Option ℕ)
  | execute (id : ℕ)
  | push (id : ℕ)
  | worker
  | take (id : ℕ)
  | cancel (id : ℕ)
  | markRunning (id : ℕ)
  | runStep (id : ℕ)
  | step (id : ℕ)
  | finalize (id : ℕ) (poll : AsyncPollStatus)
  | clear (id : ℕ)
  deriving DecidableEq

/-- What the code leaves open: a full queue, the element it yields, what a step does next. -/
inductive Choice
  | pick (place : ℕ)
  | full
  | call (call : Call)
  | finish (poll : AsyncPollStatus)

namespace Runtime
/-- `transition` on an event, before `next` frames: a terminal status takes all callbacks out. -/
def transition (m : Runtime) (event : Event) (status : AsyncTaskStatus) (next : List Frame) : Runtime × List Frame :=
  if (m.status event).isTerminal then (m, next)
  else if status.isTerminal then
    ({m with
      status := Function.update m.status event status
      callbacks := m.callbacks.filter (·.1 ≠ event)},
      .invoke ((m.callbacks.filter (·.1 = event)).map (·.2)) :: next)
  else ({m with status := Function.update m.status event status}, next)

def onComplete (m : Runtime) (event : Event) (callback : Callback) (next : List Frame) : Runtime × List Frame :=
  if (m.status event).isTerminal then (m, .invoke [callback] :: next)
  else ({m with callbacks := m.callbacks ++ [(event, callback)]}, next)

/-- A new submission state with its dependency state. -/
def allocate (m : Runtime) (submission : Submission) : Runtime :=
  let id := m.nextSubmissionId + 1
  {m with
    nextSubmissionId := id
    submissions := Function.update m.submissions id submission
    remaining := Function.update m.remaining id submission.prerequisites.length}

def stopRequested (m : Runtime) (id : ℕ) : Bool := (m.submissions id).cancellation.any m.stopped

/-- A resume past its status check returns `true`. -/
def recordResume (m : Runtime) (id : ℕ) (resume : Option ℕ) : Runtime :=
  {m with resumed := (resume.map (id, ·)).toList ++ m.resumed}

end Runtime

def runCall (m : Runtime) : Call → Runtime × List Frame
  | .submit submission =>
      (m.allocate submission, [if submission.prerequisites = [] then .dispatch (m.nextSubmissionId + 1) none
        else .register (m.nextSubmissionId + 1) submission.prerequisites, .returned (m.nextSubmissionId + 1)])
  | .resume id => if m.handles id then (m, [.loadStatus id]) else (m, [])
  | .requestStop token => ({m with stopped := Function.update m.stopped token true}, [])
  | .complete event status => m.transition (.created event) status []
  | .onComplete event callback => m.onComplete event (.other callback) []

/-- The callback of a submission on one of its prerequisites, once the status has been read. -/
def runPrerequisite (m : Runtime) (event : Event) (id : ℕ) : List Frame :=
  if (m.submissions id).stopOnPrerequisiteFailure then
    if m.status event = .failed then [.storeFailed id, .countDown id]
    else if m.status event = .cancelled then [.storeCancelled id, .countDown id]
    else [.countDown id]
  else [.countDown id]

/-- The atomic actions; `body` is the code of the user's callbacks. -/
def code (body : ℕ → List Call) : Code Runtime Frame Choice := fun m f x => match f with
  | .call call => some (runCall m call)
  | .register _ [] => some (m, [])
  | .register id (event :: rest) => some (m.onComplete event (.prerequisite event id) [.register id rest])
  | .returned id => some ({m with handles := Function.update m.handles id true}, [])
  | .invoke [] => some (m, [])
  | .invoke (.prerequisite event id :: rest) => some (m, [.loadPrerequisite event id, .invoke rest])
  | .invoke (.other callback :: rest) => some (m, (body callback).map .call ++ [.invoke rest])
  | .loadPrerequisite event id => some (m, runPrerequisite m event id)
  | .storeFailed id => some ({m with failed := Function.update m.failed id true}, [])
  | .storeCancelled id => some ({m with cancelled := Function.update m.cancelled id true}, [])
  | .countDown id =>
      some ({m with remaining := Function.update m.remaining id (m.remaining id - 1)},
        if m.remaining id = 1 then [.loadFailed id] else [])
  | .loadFailed id => some (m, [if m.failed id then .markFailed id else .loadCancelled id])
  | .loadCancelled id => some (m, [if m.cancelled id then .markCancelled id else .dispatch id none])
  | .markFailed id => some (m.transition (.submission id) .failed [])
  | .markCancelled id => some (m.transition (.submission id) .cancelled [])
  | .loadStatus id =>
      if m.status (.submission id) = .suspended ∨ m.status (.submission id) = .pending then
        some (m, [.dispatch id (some (m.executions id))])
      else some (m, [])
  | .dispatch id resume =>
      if m.inFlight id then some (m.recordResume id resume, [])
      else some ({m.recordResume id resume with inFlight := Function.update m.inFlight id true}, [.execute id])
  | .execute id =>
      if m.stopRequested id then some (m, [.cancel id])
      else if (m.submissions id).executor = .threadPool then some (m, [.push id])
      else some (m, [.markRunning id])
  | .push id => match x with
    | .full => some (m, [.push id])
    | _ => some ({m with queue := m.queue ++ [id]}, [])
  | .worker => match x with
    | .pick k => m.queue[k]?.map fun id => ({m with queue := m.queue.eraseIdx k}, [.take id, .worker])
    | _ => none
  | .take id => if m.stopRequested id then some (m, [.cancel id]) else some (m, [.markRunning id])
  | .cancel id => some (m.transition (.submission id) .cancelled [.clear id])
  | .markRunning id => some (m.transition (.submission id) .running [.runStep id])
  | .runStep id =>
      some ({m with executions := Function.update m.executions id (m.executions id + 1)}, [.step id])
  | .step id => match x with
    | .call call => some (m, [.call call, .step id])
    | .finish poll => some (m, [.finalize id poll])
    | _ => none
  | .finalize id poll => some (m.transition (.submission id) poll.taskStatus [.clear id])
  | .clear id => some ({m with inFlight := Function.update m.inFlight id false}, [])

/-- What a transition does, branch by branch. -/
inductive Transitions (m : Runtime) (event : Event) (status : AsyncTaskStatus) (next : List Frame) :
    Runtime → List Frame → Prop
  | already (ht : (m.status event).isTerminal = true) : Transitions m event status next m next
  | keep (ht : (m.status event).isTerminal = false) (hs : status.isTerminal = false) :
      Transitions m event status next {m with status := Function.update m.status event status} next
  | drain (ht : (m.status event).isTerminal = false) (hs : status.isTerminal = true) :
      Transitions m event status next
        {m with status := Function.update m.status event status, callbacks := m.callbacks.filter (·.1 ≠ event)}
        (.invoke ((m.callbacks.filter (·.1 = event)).map (·.2)) :: next)

/-- What a registration does, branch by branch. -/
inductive Registers (m : Runtime) (event : Event) (callback : Callback) (next : List Frame) :
    Runtime → List Frame → Prop
  | invokeNow (ht : (m.status event).isTerminal = true) :
      Registers m event callback next m (.invoke [callback] :: next)
  | store (ht : (m.status event).isTerminal = false) :
      Registers m event callback next {m with callbacks := m.callbacks ++ [(event, callback)]} next

/-- What one action does, branch by branch. -/
inductive Acts (body : ℕ → List Call) (m : Runtime) : Frame → Runtime → List Frame → Prop
  | submit (submission) (hp : submission.prerequisites = []) : Acts body m (.call (.submit submission))
      (m.allocate submission) [.dispatch (m.nextSubmissionId + 1) none, .returned (m.nextSubmissionId + 1)]
  | submitWaiting (submission) (hp : submission.prerequisites ≠ []) : Acts body m (.call (.submit submission))
      (m.allocate submission)
      [.register (m.nextSubmissionId + 1) submission.prerequisites, .returned (m.nextSubmissionId + 1)]
  | resume (id) (hh : m.handles id = true) : Acts body m (.call (.resume id)) m [.loadStatus id]
  | noHandle (id) : Acts body m (.call (.resume id)) m []
  | requestStop (token) : Acts body m (.call (.requestStop token))
      {m with stopped := Function.update m.stopped token true} []
  | complete (event status m' fs) (ht : Transitions m (.created event) status [] m' fs) :
      Acts body m (.call (.complete event status)) m' fs
  | onComplete (event callback m' fs) (hr : Registers m event (.other callback) [] m' fs) :
      Acts body m (.call (.onComplete event callback)) m' fs
  | registered (id) : Acts body m (.register id []) m []
  | register (id event rest m' fs) (hr : Registers m event (.prerequisite event id) [.register id rest] m' fs) :
      Acts body m (.register id (event :: rest)) m' fs
  | returned (id) : Acts body m (.returned id) {m with handles := Function.update m.handles id true} []
  | invoked : Acts body m (.invoke []) m []
  | invokePrerequisite (event id rest) : Acts body m (.invoke (.prerequisite event id :: rest)) m
      [.loadPrerequisite event id, .invoke rest]
  | invokeOther (callback rest) : Acts body m (.invoke (.other callback :: rest)) m
      ((body callback).map .call ++ [.invoke rest])
  | prerequisiteFailed (event id) : Acts body m (.loadPrerequisite event id) m [.storeFailed id, .countDown id]
  | prerequisiteCancelled (event id) : Acts body m (.loadPrerequisite event id) m [.storeCancelled id, .countDown id]
  | prerequisiteDone (event id) : Acts body m (.loadPrerequisite event id) m [.countDown id]
  | storeFailed (id) : Acts body m (.storeFailed id) {m with failed := Function.update m.failed id true} []
  | storeCancelled (id) : Acts body m (.storeCancelled id) {m with cancelled := Function.update m.cancelled id true} []
  | countLast (id) (hr : m.remaining id = 1) : Acts body m (.countDown id)
      {m with remaining := Function.update m.remaining id (m.remaining id - 1)} [.loadFailed id]
  | countDown (id) (hr : m.remaining id ≠ 1) : Acts body m (.countDown id)
      {m with remaining := Function.update m.remaining id (m.remaining id - 1)} []
  | anyFailed (id) : Acts body m (.loadFailed id) m [.markFailed id]
  | noneFailed (id) : Acts body m (.loadFailed id) m [.loadCancelled id]
  | anyCancelled (id) : Acts body m (.loadCancelled id) m [.markCancelled id]
  | noneCancelled (id) : Acts body m (.loadCancelled id) m [.dispatch id none]
  | markFailed (id m' fs) (ht : Transitions m (.submission id) .failed [] m' fs) : Acts body m (.markFailed id) m' fs
  | markCancelled (id m' fs) (ht : Transitions m (.submission id) .cancelled [] m' fs) :
      Acts body m (.markCancelled id) m' fs
  | resumable (id) (hs : m.status (.submission id) = .suspended ∨ m.status (.submission id) = .pending) :
      Acts body m (.loadStatus id) m [.dispatch id (some (m.executions id))]
  | notResumable (id) : Acts body m (.loadStatus id) m []
  | busy (id resume) (hf : m.inFlight id = true) : Acts body m (.dispatch id resume) (m.recordResume id resume) []
  | dispatch (id resume) (hf : m.inFlight id = false) : Acts body m (.dispatch id resume)
      {m.recordResume id resume with inFlight := Function.update m.inFlight id true} [.execute id]
  | executeStopped (id) (hs : m.stopRequested id = true) : Acts body m (.execute id) m [.cancel id]
  | executePool (id) : Acts body m (.execute id) m [.push id]
  | executeHere (id) : Acts body m (.execute id) m [.markRunning id]
  | pushFull (id) : Acts body m (.push id) m [.push id]
  | push (id) : Acts body m (.push id) {m with queue := m.queue ++ [id]} []
  | dequeue (id queue) (hq : m.queue.Perm (id :: queue)) :
      Acts body m .worker {m with queue := queue} [.take id, .worker]
  | takeStopped (id) (hs : m.stopRequested id = true) : Acts body m (.take id) m [.cancel id]
  | take (id) : Acts body m (.take id) m [.markRunning id]
  | cancel (id m' fs) (ht : Transitions m (.submission id) .cancelled [.clear id] m' fs) :
      Acts body m (.cancel id) m' fs
  | markRunning (id m' fs) (ht : Transitions m (.submission id) .running [.runStep id] m' fs) :
      Acts body m (.markRunning id) m' fs
  | runStep (id) : Acts body m (.runStep id)
      {m with executions := Function.update m.executions id (m.executions id + 1)} [.step id]
  | stepCall (id call) : Acts body m (.step id) m [.call call, .step id]
  | stepFinish (id poll) : Acts body m (.step id) m [.finalize id poll]
  | finalize (id poll m' fs) (ht : Transitions m (.submission id) poll.taskStatus [.clear id] m' fs) :
      Acts body m (.finalize id poll) m' fs
  | clear (id) : Acts body m (.clear id) {m with inFlight := Function.update m.inFlight id false} []

variable {body : ℕ → List Call} {m m' : Runtime} {f : Frame} {x : Choice} {fs next : List Frame} {event : Event}

theorem transitions_of_eq {status : AsyncTaskStatus} (h : m.transition event status next = (m', fs)) :
    Transitions m event status next m' fs := by
  unfold Runtime.transition at h
  split_ifs at h with ht hs <;> cases h
  · exact .already ht
  · exact .drain (by simpa using ht) hs
  · exact .keep (by simpa using ht) (by simpa using hs)

theorem registers_of_eq {callback : Callback} (h : m.onComplete event callback next = (m', fs)) :
    Registers m event callback next m' fs := by
  unfold Runtime.onComplete at h
  split_ifs at h with ht <;> cases h
  · exact .invokeNow ht
  · exact .store (by simpa using ht)

theorem acts_of_runCall {call : Call} (h : runCall m call = (m', fs)) : Acts body m (.call call) m' fs := by
  cases call with
  | submit submission =>
    simp only [runCall] at h
    split_ifs at h with hp <;> cases h
    · exact .submit submission hp
    · exact .submitWaiting submission hp
  | resume id =>
    simp only [runCall] at h
    split_ifs at h with hh <;> cases h
    · exact .resume id hh
    · exact .noHandle id
  | requestStop token => cases h; exact .requestStop token
  | complete event status => exact .complete event status m' fs (transitions_of_eq h)
  | onComplete event callback => exact .onComplete event callback m' fs (registers_of_eq h)

theorem acts_of_runPrerequisite {id : ℕ} (h : runPrerequisite m event id = fs) :
    Acts body m (.loadPrerequisite event id) m fs := by
  unfold runPrerequisite at h
  split_ifs at h <;> subst h
  · exact .prerequisiteFailed event id
  · exact .prerequisiteCancelled event id
  · exact .prerequisiteDone event id
  · exact .prerequisiteDone event id

theorem acts_of_code (h : code body m f x = some (m', fs)) : Acts body m f m' fs := by
  cases f with
  | call call => exact acts_of_runCall (Option.some.inj h)
  | register id events =>
    cases events with
    | nil => cases h; exact .registered id
    | cons event rest => exact .register id event rest m' fs (registers_of_eq (Option.some.inj h))
  | invoke callbacks =>
    cases callbacks with
    | nil => cases h; exact .invoked
    | cons callback rest => cases callback <;> cases h <;> constructor
  | loadPrerequisite event id =>
    cases h
    exact acts_of_runPrerequisite rfl
  | loadFailed id | loadCancelled id =>
    simp only [code] at h
    split_ifs at h <;> cases h <;> constructor
  | countDown id | dispatch id resume | execute id | take id =>
    simp only [code] at h
    split_ifs at h <;> cases h <;> constructor <;> simp_all
  | loadStatus id =>
    simp only [code] at h
    split_ifs at h with hs <;> cases h
    · exact .resumable id hs
    · exact .notResumable id
  | markFailed id | markCancelled id | cancel id | markRunning id | finalize id poll =>
    constructor
    exact transitions_of_eq (Option.some.inj h)
  | worker =>
    simp only [code] at h
    split at h
    · obtain ⟨id, hk, h⟩ := Option.map_eq_some_iff.mp h
      obtain ⟨hl, rfl⟩ := List.getElem?_eq_some_iff.mp hk
      cases h
      exact .dequeue _ _ (List.getElem_cons_eraseIdx_perm hl).symm
    · cases h
  | push id | step id =>
    simp only [code] at h
    split at h <;> cases h <;> constructor
  | returned id | storeFailed id | storeCancelled id | runStep id | clear id => cases h; constructor

/-- `AsyncThreadPoolExecutor` has at least one worker and at most sixteen. -/
def poolSize (workerCount : ℕ) : ℕ := if workerCount = 0 then 1 else min workerCount 16

theorem poolSize_pos (workerCount : ℕ) : 0 < poolSize workerCount := by
  unfold poolSize
  split_ifs <;> omega

/-- The workers of the pool beside any number of threads about to make any calls. -/
def start (workerCount : ℕ) (programs : List (List Call)) : Config Runtime Frame :=
  ⟨{}, List.replicate (poolSize workerCount) [.worker] ++ programs.map (·.map .call)⟩

theorem frame_start {workerCount : ℕ} {programs : List (List Call)} (hf : f ∈ (start workerCount programs).frames) :
    f = .worker ∨ ∃ call, f = .call call := mem_workers hf

theorem total_start {workerCount : ℕ} {programs : List (List Call)} {g : Frame → ℕ} (hw : g .worker = 0)
    (hc : ∀ call, g (.call call) = 0) : (start workerCount programs).total g = 0 :=
  total_workers hw hc _ _ _

/-- A dispatch that won `inFlight` and has not begun the step. -/
def due (id : ℕ) : Frame → ℕ
  | .execute id' | .push id' | .take id' | .markRunning id' | .runStep id' => if id' = id then 1 else 0
  | _ => 0

/-- A step begun whose result is not published. -/
def inside (id : ℕ) : Frame → ℕ
  | .step id' | .finalize id' _ => if id' = id then 1 else 0
  | _ => 0

/-- A dispatch that has only to clear `inFlight`, or to mark the event cancelled before. -/
def clearing (id : ℕ) : Frame → ℕ
  | .cancel id' | .clear id' => if id' = id then 1 else 0
  | _ => 0

def holding (id : ℕ) (f : Frame) : ℕ := due id f + inside id f + clearing id f

variable {c c' : Config Runtime Frame} {id : ℕ}

theorem Transitions.status_eq {status : AsyncTaskStatus} (h : Transitions m event status next m' fs) (e : Event) :
    m'.status e = m.status e ∨ e = event ∧ (m.status event).isTerminal = false ∧ m'.status e = status := by
  cases h with
  | already ht => exact .inl rfl
  | keep ht hs | drain ht hs =>
    by_cases he : e = event
    · exact .inr ⟨he, ht, by simp [he]⟩
    · exact .inl (by simp [he])

theorem Transitions.terminal {status : AsyncTaskStatus} (h : Transitions m event status next m' fs) {e : Event}
    (he : (m.status e).isTerminal = true) : (m'.status e).isTerminal = true := by
  rcases h.status_eq e with hs | ⟨rfl, hn, _⟩
  · rwa [hs]
  · rw [hn] at he
    cases he

/-- A transition changes only the events. -/
theorem Transitions.submission_eq {status : AsyncTaskStatus} (h : Transitions m event status next m' fs) :
    m'.nextSubmissionId = m.nextSubmissionId ∧ m'.submissions = m.submissions ∧ m'.inFlight = m.inFlight ∧
      m'.remaining = m.remaining ∧ m'.queue = m.queue := by
  cases h <;> exact ⟨rfl, rfl, rfl, rfl, rfl⟩

theorem Transitions.sum {A : Type*} [AddCommMonoid A] {status : AsyncTaskStatus}
    (h : Transitions m event status next m' fs) {g : Frame → A} (hg : ∀ callbacks, g (.invoke callbacks) = 0) :
    (fs.map g).sum = (next.map g).sum := by
  cases h <;> simp [hg]

theorem Registers.sum {A : Type*} [AddCommMonoid A] {callback : Callback}
    (h : Registers m event callback next m' fs) {g : Frame → A} (hg : ∀ callbacks, g (.invoke callbacks) = 0) :
    (fs.map g).sum = (next.map g).sum := by
  cases h <;> simp [hg]

/-- A submission not made yet has the default fields. -/
theorem fresh_step (h : Step (code body) c f x c') (hi : ∀ id, c.mem.nextSubmissionId < id → c.mem.submissions id = {}) :
    ∀ id, c'.mem.nextSubmissionId < id → c'.mem.submissions id = {} := by
  obtain ⟨fs, he⟩ := h.runs_code
  have ha := acts_of_code he
  generalize c.mem = m, c'.mem = m' at ha hi ⊢
  cases ha with
  | submit submission hp | submitWaiting submission hp =>
    intro id hid
    have hlt : m.nextSubmissionId + 1 < id := hid
    simpa [Runtime.allocate, hlt.ne'] using hi id (by omega)
  | complete event status m' fs ht | markFailed id m' fs ht | markCancelled id m' fs ht
  | cancel id m' fs ht | markRunning id m' fs ht | finalize id poll m' fs ht => cases ht <;> exact hi
  | onComplete event callback m' fs hr | register id event rest m' fs hr => cases hr <;> exact hi
  | _ => exact hi

def ends (id : ℕ) : Frame → Bool
  | .markFailed id' | .markCancelled id' | .cancel id' => id' = id
  | .finalize id' poll => id' = id ∧ poll ≠ .suspend
  | _ => false

theorem Acts.terminal (ha : Acts body m f m' fs) {e : Event} (he : (m.status e).isTerminal = true) :
    (m'.status e).isTerminal = true := by
  cases ha with
  | complete event status m' fs ht | markFailed id m' fs ht | markCancelled id m' fs ht
  | cancel id m' fs ht | markRunning id m' fs ht | finalize id poll m' fs ht => exact ht.terminal he
  | onComplete event callback m' fs hr | register id event rest m' fs hr => cases hr <;> exact he
  | _ => exact he

theorem Acts.next_le (ha : Acts body m f m' fs) : m.nextSubmissionId ≤ m'.nextSubmissionId := by
  cases ha with
  | submit submission hp | submitWaiting submission hp => exact Nat.le_succ _
  | complete event status m' fs ht | markFailed id m' fs ht | markCancelled id m' fs ht
  | cancel id m' fs ht | markRunning id m' fs ht | finalize id poll m' fs ht => exact ht.submission_eq.1.ge
  | onComplete event callback m' fs hr | register id event rest m' fs hr => cases hr <;> exact le_rfl
  | _ => exact le_rfl

/-- A result is to be published only after a step. -/
theorem Acts.step_of_finalize (ha : Acts body m f m' fs) {poll : AsyncPollStatus} (hf : .finalize id poll ∈ fs) :
    f = .step id := by
  cases ha with
  | complete event status m' fs ht | markFailed id m' fs ht | markCancelled id m' fs ht
  | cancel id m' fs ht | markRunning id m' fs ht | finalize id poll m' fs ht => cases ht <;> simp at hf
  | onComplete event callback m' fs hr | register id event rest m' fs hr => cases hr <;> simp at hf
  | stepFinish id' poll' =>
    cases List.mem_singleton.mp hf
    rfl
  | _ => simp at hf

theorem Acts.of_end (ha : Acts body m f m' fs) (hn : (m.status (.submission id)).isTerminal = false)
    (he : (m'.status (.submission id)).isTerminal = true) : ends id f = true := by
  have hne : m'.status (.submission id) ≠ m.status (.submission id) := fun h => by simp [h, hn] at he
  cases ha with
  | complete event status m' fs ht =>
    obtain ⟨h, _, _⟩ := (ht.status_eq (.submission id)).resolve_left hne
    cases h
  | markFailed id' m' fs ht | markCancelled id' m' fs ht | cancel id' m' fs ht =>
    obtain ⟨h, _, _⟩ := (ht.status_eq (.submission id)).resolve_left hne
    simp [ends, Event.submission.inj h]
  | markRunning id' m' fs ht =>
    obtain ⟨_, _, hs⟩ := (ht.status_eq (.submission id)).resolve_left hne
    simp [hs] at he
  | finalize id' poll m' fs ht =>
    obtain ⟨h, _, hs⟩ := (ht.status_eq (.submission id)).resolve_left hne
    rw [hs] at he
    cases poll <;> simp_all [ends, AsyncPollStatus.taskStatus]
  | onComplete event callback m' fs hr | register id' event rest m' fs hr => cases hr <;> exact absurd rfl hne
  | _ => exact absurd rfl hne

def Callback.counts (id : ℕ) : Callback → Bool
  | .prerequisite _ id' => id' = id
  | .other _ => false

/-- The frames that belong to a submission. -/
def mentions (id : ℕ) : Frame → ℕ
  | .register id' _ | .returned id' | .loadPrerequisite _ id' | .storeFailed id' | .storeCancelled id'
  | .countDown id' | .loadFailed id' | .loadCancelled id' | .markFailed id' | .markCancelled id' | .loadStatus id'
  | .dispatch id' _ | .execute id' | .push id' | .take id' | .cancel id' | .markRunning id' | .runStep id'
  | .step id' | .finalize id' _ | .clear id' => if id' = id then 1 else 0
  | .invoke callbacks => callbacks.countP (·.counts id)
  | _ => 0

/-- The runtime knows nothing of a submission yet. -/
structure Fresh (m : Runtime) (id : ℕ) : Prop where
  pending : m.status (.submission id) = .pending
  handle : m.handles id = false
  queued : id ∉ m.queue
  stored : m.callbacks.countP (·.2.counts id) = 0

theorem countP_filter_event (callbacks : List (Event × Callback)) (id : ℕ) (event : Event) :
    ((callbacks.filter (·.1 = event)).map (·.2)).countP (·.counts id) +
      (callbacks.filter (·.1 ≠ event)).countP (·.2.counts id) = callbacks.countP (·.2.counts id) := by
  rw [List.countP_map, List.countP_eq_countP_filter_add callbacks _ (·.1 = event)]
  simp [Function.comp_def]

theorem Transitions.fresh {status : AsyncTaskStatus} (h : Transitions m event status next m' fs)
    (he : event ≠ .submission id) (hf : Fresh m id) :
    Fresh m' id ∧ (fs.map (mentions id)).sum = (next.map (mentions id)).sum := by
  cases h with
  | already ht => exact ⟨hf, rfl⟩
  | keep ht hs => exact ⟨⟨by simpa [he.symm] using hf.pending, hf.handle, hf.queued, hf.stored⟩, rfl⟩
  | drain ht hs =>
    have hc := countP_filter_event m.callbacks id event
    rw [hf.stored] at hc
    refine ⟨⟨by simpa [he.symm] using hf.pending, hf.handle, hf.queued, ?_⟩, ?_⟩
    · exact (Nat.add_eq_zero_iff.mp hc).2
    · simp only [List.map_cons, List.sum_cons, mentions, (Nat.add_eq_zero_iff.mp hc).1, zero_add]

theorem Registers.fresh {callback : Callback} (h : Registers m event callback next m' fs)
    (hc : callback.counts id = false) (hf : Fresh m id) :
    Fresh m' id ∧ (fs.map (mentions id)).sum = (next.map (mentions id)).sum := by
  cases h with
  | invokeNow ht => exact ⟨hf, by simp [mentions, hc]⟩
  | store ht =>
    refine ⟨⟨hf.pending, hf.handle, hf.queued, ?_⟩, rfl⟩
    rw [List.countP_append, hf.stored]
    simp [hc]

/-- An action of other submissions leaves a fresh one fresh. -/
theorem Acts.fresh (ha : Acts body m f m' fs) (hid : m'.nextSubmissionId < id) (hm : mentions id f = 0)
    (hf : Fresh m id) : Fresh m' id ∧ (fs.map (mentions id)).sum = 0 := by
  cases ha with
  | submit submission hp | submitWaiting submission hp =>
    have hne : m.nextSubmissionId + 1 ≠ id := Nat.ne_of_lt hid
    exact ⟨⟨hf.pending, hf.handle, hf.queued, hf.stored⟩, by simp [mentions, hne]⟩
  | resume id' hh =>
    have hne : id' ≠ id := by
      rintro rfl
      rw [hf.handle] at hh
      cases hh
    exact ⟨hf, by simp [mentions, hne]⟩
  | complete event status m' fs ht => exact ht.fresh (by simp) hf
  | onComplete event callback m' fs hr => exact hr.fresh rfl hf
  | register id' event rest m' fs hr =>
    have hne : id' ≠ id := by simpa [mentions] using hm
    refine (hr.fresh (by simpa [Callback.counts] using hne) hf).imp_right fun h => ?_
    rw [h]
    simp [mentions, hne]
  | markFailed id' m' fs ht | markCancelled id' m' fs ht | cancel id' m' fs ht | markRunning id' m' fs ht
  | finalize id' poll m' fs ht =>
    have hne : id' ≠ id := by simpa [mentions] using hm
    refine (ht.fresh (by simpa using hne) hf).imp_right fun h => ?_
    rw [h]
    simp [mentions, hne]
  | returned id' =>
    have hne : id' ≠ id := by simpa [mentions] using hm
    exact ⟨⟨hf.pending, by simpa [hne.symm] using hf.handle, hf.queued, hf.stored⟩, rfl⟩
  | invokePrerequisite event id' rest =>
    exact ⟨hf, by simpa [mentions, Callback.counts, List.countP_cons, and_comm] using hm⟩
  | invokeOther callback rest =>
    rw [List.map_append, List.map_map, List.sum_append, sum_calls (g := mentions id) Frame.call fun _ => rfl]
    exact ⟨hf, by simpa [mentions, Callback.counts] using hm⟩
  | push id' =>
    have hne : id' ≠ id := by simpa [mentions] using hm
    exact ⟨⟨hf.pending, hf.handle, by simpa [hne.symm] using hf.queued, hf.stored⟩, rfl⟩
  | dequeue id' queue hq =>
    have hn : id ∉ id' :: queue := fun h => hf.queued (hq.mem_iff.mpr h)
    rw [List.mem_cons, not_or] at hn
    exact ⟨⟨hf.pending, hf.handle, hn.2, hf.stored⟩, by simp [mentions, Ne.symm hn.1]⟩
  | stepCall id' call => exact ⟨hf, by simpa [mentions] using hm⟩
  | _ => exact ⟨⟨hf.pending, hf.handle, hf.queued, hf.stored⟩, by first | rfl | simpa [mentions] using hm⟩

theorem total_holding (c : Config Runtime Frame) (id : ℕ) :
    c.total (holding id) = c.total (due id) + c.total (inside id) + c.total (clearing id) := by
  rw [← total_add, ← total_add]
  rfl

/-- A submission is in flight exactly while one dispatch holds it, in a frame or in the pool's queue. -/
theorem holder_step (h : Step (code body) c f x c')
    (hi : c.total (holding id) + c.mem.queue.count id = (c.mem.inFlight id).toNat) :
    c'.total (holding id) + c'.mem.queue.count id = (c'.mem.inFlight id).toNat := by
  obtain ⟨fs, r, ha, hr, hr'⟩ := h.measure acts_of_code (holding id)
  rw [hr] at hi
  rw [hr']
  generalize c.mem = m, c'.mem = m' at ha hi ⊢
  clear h hr hr'
  cases ha with
  | invokeOther callback rest =>
    rw [List.map_append, List.map_map, List.sum_append, sum_calls (g := holding id) Frame.call fun _ => rfl]
    exact hi
  | complete event status m' fs ht | markFailed id' m' fs ht | markCancelled id' m' fs ht
  | cancel id' m' fs ht | markRunning id' m' fs ht | finalize id' poll m' fs ht =>
    cases ht <;> simpa [holding, due, inside, clearing] using hi
  | onComplete event callback m' fs hr | register id' event rest m' fs hr =>
    cases hr <;> simpa [holding, due, inside, clearing] using hi
  | dispatch id' resume hf =>
    by_cases hid : id = id'
    · subst hid
      simp [holding, due, inside, clearing, Runtime.recordResume, hf] at hi ⊢
      omega
    · simpa [holding, due, inside, clearing, Runtime.recordResume, hid, Ne.symm hid] using hi
  | dequeue id' queue hq =>
    simp [holding, due, inside, clearing, hq.count_eq, List.count_cons] at hi ⊢
    omega
  | push id' =>
    simp [holding, due, inside, clearing, List.count_singleton] at hi ⊢
    omega
  | clear id' =>
    by_cases hid : id = id'
    · subst hid
      have hb := Bool.toNat_le (m.inFlight id)
      simp [holding, due, inside, clearing] at hi ⊢
      omega
    · simpa [holding, due, inside, clearing, hid, Ne.symm hid] using hi
  | _ => first | exact hi | simpa [holding, due, inside, clearing] using hi

theorem holder_start {workerCount : ℕ} {programs : List (List Call)} :
    (start workerCount programs).total (holding id) + (start workerCount programs).mem.queue.count id =
      ((start workerCount programs).mem.inFlight id).toNat := by
  rw [total_start rfl fun _ => rfl]
  rfl

end Zpc.AsyncRuntime
