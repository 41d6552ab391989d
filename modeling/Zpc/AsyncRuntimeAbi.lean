import Zpc.AsyncRuntime

/-!
# Native queues behind the runtime's binary interface

`zpc_runtime_native_queue_submit`, `zpc_runtime_async_submit` and `zpc_runtime_async_cancel` of `AsyncRuntimeAbi.hpp`
and the `AsyncNativeQueueExecutor` of `AsyncNativeQueueAdapter.hpp`, over the runtime of `Zpc.AsyncRuntime`. Every
native submission registers its executor under the one name `abi_native_queue`, and every lookup of that name is an
action of its own. Labels, priorities and the checks of headers and null pointers are left out.
-/
namespace Zpc.AsyncRuntimeAbi
open Interleaving
open AsyncRuntime (Runtime Executor AsyncPollStatus)

def asyncNativeCapabilitySync : ℕ := 1 <<< 1
def asyncNativeCapabilityRecord : ℕ := 1 <<< 2
def asyncNativeCapabilityWait : ℕ := 1 <<< 3

structure AsyncNativeQueueDescriptor where
  backendCode : ℕ := 0
  queueCode : ℕ := 0
  device : ℤ := -1
  streamOrQueueId : ℤ := -1
  capabilityMask : ℕ := 0
  syncAfterSubmit : Bool := false
  recordAfterSubmit : Bool := false
  interactive : Bool := false
  deriving DecidableEq

def AsyncNativeQueueDescriptor.supports (d : AsyncNativeQueueDescriptor) (capabilityBit : ℕ) : Bool :=
  d.capabilityMask &&& capabilityBit = capabilityBit

/-- The binding of a native queue, and which of its operations were given. -/
structure AsyncNativeQueueBinding where
  opaqueBinding : ℕ
  sync : Bool := false
  record : Bool := false
  wait : Bool := false
  deriving DecidableEq

/-- What an `AsyncNativeQueueExecutor` is made of. -/
structure NativeQueue where
  descriptor : AsyncNativeQueueDescriptor
  binding : AsyncNativeQueueBinding
  deriving DecidableEq

/-- A submission to the executor called `abi_native_queue`: of a native queue, or of a host task that names it. -/
structure Request where
  queue : Option NativeQueue
  prerequisites : List ℕ
  foreignSignalTokens : List ℕ
  deriving DecidableEq

inductive Call
  | nativeQueueSubmit (queue : NativeQueue) (prerequisites foreignSignalTokens : List ℕ)
  | asyncSubmit (executor : Executor) (prerequisites : List ℕ)
  | cancel (id : ℕ)
  | resume (id : ℕ)
  deriving DecidableEq

/-- The runtime, the executor registered as `abi_native_queue`, the signal registry and the state of each submission:
its queue, the executor that `submit` found for it, its foreign signals and its endpoint, with a record of the queues
that its executions, records and synchronisations went to. -/
structure Engine where
  runtime : Runtime := {}
  nativeQueue : Option NativeQueue := none
  signals : ℕ → Bool := fun _ => false
  queue : ℕ → Option NativeQueue := fun _ => none
  executor : ℕ → Option NativeQueue := fun _ => none
  foreignSignalTokens : ℕ → List ℕ := fun _ => []
  foreignSignalsSatisfied : ℕ → Bool := fun _ => false
  endpoint : ℕ → Option NativeQueue := fun _ => none
  uses : List (ℕ × NativeQueue) := []

/-- The frames of the runtime are as in `Zpc.AsyncRuntime`; those of a dispatch to a native queue hold its executor. -/
inductive Frame
  | runtime (frame : AsyncRuntime.Frame)
  | native (frame : AsyncRuntime.Frame) (executor : NativeQueue)
  | call (call : Call)
  | registerExecutor (queue : NativeQueue) (request : Request)
  | getExecutor (request : Request)
  | submit (request : Request) (executor : NativeQueue)
  | registerSignal (id : ℕ)
  | cancelStatus (id : ℕ)
  | wait (id : ℕ) (tokens : List ℕ) (executor : NativeQueue)
  | record (id : ℕ) (poll : AsyncPollStatus) (executor : NativeQueue)
  | sync (id : ℕ) (poll : AsyncPollStatus) (executor : NativeQueue)
  deriving DecidableEq

/-- What the code leaves open: the choices of the runtime, what a host task does next, and what a native operation
answers. -/
inductive Choice
  | runtime (choice : AsyncRuntime.Choice)
  | call (call : Call)
  | finish (poll : AsyncPollStatus)
  | answer (ok : Bool)

namespace Engine
/-- What is submitted to the runtime; every submission has a stop source of its own. -/
def submission (m : Engine) (executor : Executor) (prerequisites : List ℕ) : AsyncRuntime.Submission where
  executor := executor
  prerequisites := prerequisites.map .submission
  cancellation := some (m.runtime.nextSubmissionId + 1)

/-- `runtime->submit` of a submission whose executor has been found. -/
def submit (m : Engine) (executor : Executor) (prerequisites : List ℕ) : Engine × List Frame :=
  let r := AsyncRuntime.runCall m.runtime (.submit (m.submission executor prerequisites))
  ({m with runtime := r.1}, r.2.map .runtime ++ [.registerSignal (m.runtime.nextSubmissionId + 1)])

def use (m : Engine) (id : ℕ) (executor : NativeQueue) : Engine := {m with uses := (id, executor) :: m.uses}

def isNative (m : Engine) (id : ℕ) : Bool := (m.runtime.submissions id).executor = .nativeQueue

end Engine

def runCall (m : Engine) : Call → Engine × List Frame
  | .nativeQueueSubmit queue prerequisites tokens =>
      if prerequisites.all m.signals ∧
          (tokens = [] ∨ queue.descriptor.supports asyncNativeCapabilityWait ∧ queue.binding.wait)
      then (m, [.registerExecutor queue ⟨some queue, prerequisites, tokens⟩])
      else (m, [])
  | .asyncSubmit executor prerequisites =>
      if prerequisites.all m.signals then
        if executor = .nativeQueue then (m, [.getExecutor ⟨none, prerequisites, []⟩])
        else m.submit executor prerequisites
      else (m, [])
  | .cancel id =>
      if m.signals id then
        ({m with runtime := (AsyncRuntime.runCall m.runtime (.requestStop id)).1}, [.cancelStatus id])
      else (m, [])
  | .resume id => (m, [.runtime (.call (.resume id))])

/-- The frames that follow a frame of a dispatch to a native queue. -/
def wrap (executor : NativeQueue) : AsyncRuntime.Frame → Frame
  | .invoke callbacks => .runtime (.invoke callbacks)
  | frame => .native frame executor

/-- A dispatch to the executor captured by `submit`, or to the one that `resume` looks up now. -/
def runDispatch (m : Engine) (id : ℕ) (resume : Option ℕ) : Option (Engine × List Frame) :=
  match if resume.isSome then m.nativeQueue else m.executor id with
  | some executor => some (m, [.native (.dispatch id resume) executor])
  | none => some (m, [])

def runRuntime (m : Engine) (frame : AsyncRuntime.Frame) : Choice → Option (Engine × List Frame)
  | .runtime choice => (AsyncRuntime.code (fun _ => []) m.runtime frame choice).map fun r =>
      ({m with runtime := r.1}, r.2.map .runtime)
  | _ => none

/-- `AsyncNativeQueueExecutor::submit` after a dispatch to it. -/
def runNative (m : Engine) (frame : AsyncRuntime.Frame) (executor : NativeQueue) : Choice → Option (Engine × List Frame)
  | .runtime choice => (AsyncRuntime.code (fun _ => []) m.runtime frame choice).map fun r =>
      ({m with runtime := r.1}, r.2.map (wrap executor))
  | _ => none

/-- The atomic actions. -/
def code : Code Engine Frame Choice := fun m f x => match f with
  | .call call => some (runCall m call)
  | .runtime (.dispatch id resume) =>
      if m.isNative id then runDispatch m id resume else runRuntime m (.dispatch id resume) x
  | .runtime (.step id) => match x with
    | .call call => some (m, [.call call, .runtime (.step id)])
    | .finish poll => some (m, [.runtime (.finalize id poll)])
    | _ => none
  | .runtime frame => runRuntime m frame x
  | .native (.execute id) executor =>
      runNative {m.use id executor with endpoint := Function.update m.endpoint id (some executor)} (.execute id)
        executor x
  | .native (.runStep id) executor =>
      some ({m with runtime := {m.runtime with
          executions := Function.update m.runtime.executions id (m.runtime.executions id + 1)}},
        [.wait id (if m.foreignSignalsSatisfied id then [] else m.foreignSignalTokens id) executor])
  | .native (.step id) executor => match x with
    | .call call => some (m, [.call call, .native (.step id) executor])
    | .finish poll => some (m, [.record id poll executor])
    | _ => none
  | .native frame executor => runNative m frame executor x
  | .registerExecutor queue request => some ({m with nativeQueue := some queue}, [.getExecutor request])
  | .getExecutor request => match m.nativeQueue with
    | some executor => some (m, [.submit request executor])
    | none => some (m, [])
  | .submit request executor =>
      let id := m.runtime.nextSubmissionId + 1
      let r := m.submit .nativeQueue request.prerequisites
      some ({r.1 with
        queue := Function.update m.queue id request.queue
        executor := Function.update m.executor id (some executor)
        foreignSignalTokens := Function.update m.foreignSignalTokens id request.foreignSignalTokens
        foreignSignalsSatisfied := Function.update m.foreignSignalsSatisfied id false}, r.2)
  | .registerSignal id => some ({m with signals := Function.update m.signals id true}, [])
  | .cancelStatus id =>
      some (m, if m.runtime.status (.submission id) = .suspended then [.runtime (.call (.resume id))] else [])
  -- the step waits on the binding that it captured, not on that of the executor
  | .wait id [] executor =>
      some ({m with foreignSignalsSatisfied := Function.update m.foreignSignalsSatisfied id true},
        [.native (.step id) executor])
  | .wait id (token :: tokens) executor =>
      if token = 0 then some (m, [.wait id tokens executor])
      else match x with
        | .answer ok => some (m, [if ok then .wait id tokens executor else .record id .failed executor])
        | _ => none
  | .record id poll executor =>
      if poll = .completed ∧ executor.descriptor.recordAfterSubmit ∧
          executor.descriptor.supports asyncNativeCapabilityRecord ∧ executor.binding.record then
        match x with
        | .answer ok =>
            some (m.use id executor, [if ok then .sync id poll executor else .native (.finalize id .failed) executor])
        | _ => none
      else some (m, [.sync id poll executor])
  | .sync id poll executor =>
      if poll = .completed ∧ executor.descriptor.syncAfterSubmit ∧
          executor.descriptor.supports asyncNativeCapabilitySync ∧ executor.binding.sync then
        match x with
        | .answer ok => some (m.use id executor, [.native (.finalize id (if ok then poll else .failed)) executor])
        | _ => none
      else some (m, [.native (.finalize id poll) executor])

/-- What one action does, branch by branch. -/
inductive Acts (m : Engine) : Frame → Engine → List Frame → Prop
  | refused (call) : Acts m (.call call) m []
  | nativeQueueSubmit (queue prerequisites tokens) (hs : prerequisites.all m.signals = true) :
      Acts m (.call (.nativeQueueSubmit queue prerequisites tokens)) m
        [.registerExecutor queue ⟨some queue, prerequisites, tokens⟩]
  | asyncSubmitNative (prerequisites) : Acts m (.call (.asyncSubmit .nativeQueue prerequisites)) m
      [.getExecutor ⟨none, prerequisites, []⟩]
  | asyncSubmit (executor prerequisites submission fs) (he : executor ≠ .nativeQueue)
      (ha : AsyncRuntime.Acts (fun _ => []) m.runtime (.call (.submit submission)) (m.runtime.allocate submission) fs) :
      Acts m (.call (.asyncSubmit executor prerequisites)) {m with runtime := m.runtime.allocate submission}
        (fs.map .runtime ++ [.registerSignal (m.runtime.nextSubmissionId + 1)])
  | cancel (id) (hs : m.signals id = true) : Acts m (.call (.cancel id))
      {m with runtime := {m.runtime with stopped := Function.update m.runtime.stopped id true}} [.cancelStatus id]
  | resume (id) : Acts m (.call (.resume id)) m [.runtime (.call (.resume id))]
  | dispatch (id executor) (hn : m.isNative id = true) (he : m.executor id = some executor) :
      Acts m (.runtime (.dispatch id none)) m [.native (.dispatch id none) executor]
  | dispatchResume (id resume executor) (hn : m.isNative id = true) (he : m.nativeQueue = some executor) :
      Acts m (.runtime (.dispatch id (some resume))) m [.native (.dispatch id (some resume)) executor]
  | noExecutor (id resume) : Acts m (.runtime (.dispatch id resume)) m []
  | stepCall (id call) : Acts m (.runtime (.step id)) m [.call call, .runtime (.step id)]
  | stepFinish (id poll) : Acts m (.runtime (.step id)) m [.runtime (.finalize id poll)]
  | runtime (frame runtime' fs) (ha : AsyncRuntime.Acts (fun _ => []) m.runtime frame runtime' fs) :
      Acts m (.runtime frame) {m with runtime := runtime'} (fs.map .runtime)
  | execute (id executor runtime' fs) (ha : AsyncRuntime.Acts (fun _ => []) m.runtime (.execute id) runtime' fs) :
      Acts m (.native (.execute id) executor)
        {m.use id executor with runtime := runtime', endpoint := Function.update m.endpoint id (some executor)}
        (fs.map (wrap executor))
  | runStep (id tokens executor) : Acts m (.native (.runStep id) executor)
      {m with runtime := {m.runtime with
        executions := Function.update m.runtime.executions id (m.runtime.executions id + 1)}}
      [.wait id tokens executor]
  | nativeCall (id executor call) : Acts m (.native (.step id) executor) m [.call call, .native (.step id) executor]
  | nativeFinish (id executor poll) : Acts m (.native (.step id) executor) m [.record id poll executor]
  | native (frame executor runtime' fs) (hs : ∀ id, frame ≠ .step id)
      (ha : AsyncRuntime.Acts (fun _ => []) m.runtime frame runtime' fs) : Acts m (.native frame executor) {m with runtime := runtime'} (fs.map (wrap executor))
  | registerExecutor (queue request) : Acts m (.registerExecutor queue request) {m with nativeQueue := some queue}
      [.getExecutor request]
  | getExecutor (request executor) (he : m.nativeQueue = some executor) : Acts m (.getExecutor request) m
      [.submit request executor]
  | notFound (request) : Acts m (.getExecutor request) m []
  | submit (request executor submission fs)
      (ha : AsyncRuntime.Acts (fun _ => []) m.runtime (.call (.submit submission)) (m.runtime.allocate submission) fs) :
      Acts m (.submit request executor)
        {m with
          runtime := m.runtime.allocate submission
          queue := Function.update m.queue (m.runtime.nextSubmissionId + 1) request.queue
          executor := Function.update m.executor (m.runtime.nextSubmissionId + 1) (some executor)
          foreignSignalTokens :=
            Function.update m.foreignSignalTokens (m.runtime.nextSubmissionId + 1) request.foreignSignalTokens
          foreignSignalsSatisfied := Function.update m.foreignSignalsSatisfied (m.runtime.nextSubmissionId + 1) false}
        (fs.map .runtime ++ [.registerSignal (m.runtime.nextSubmissionId + 1)])
  | registerSignal (id) : Acts m (.registerSignal id) {m with signals := Function.update m.signals id true} []
  | cancelSuspended (id) (hs : m.runtime.status (.submission id) = .suspended) : Acts m (.cancelStatus id) m
      [.runtime (.call (.resume id))]
  | cancelOther (id) : Acts m (.cancelStatus id) m []
  | waited (id executor) : Acts m (.wait id [] executor)
      {m with foreignSignalsSatisfied := Function.update m.foreignSignalsSatisfied id true}
      [.native (.step id) executor]
  | wait (id token tokens executor) : Acts m (.wait id (token :: tokens) executor) m [.wait id tokens executor]
  | waitFailed (id token tokens executor) : Acts m (.wait id (token :: tokens) executor) m [.record id .failed executor]
  | noRecord (id poll executor) : Acts m (.record id poll executor) m [.sync id poll executor]
  | record (id poll executor) : Acts m (.record id poll executor) (m.use id executor) [.sync id poll executor]
  | recordFailed (id poll executor) : Acts m (.record id poll executor) (m.use id executor)
      [.native (.finalize id .failed) executor]
  | noSync (id poll executor) : Acts m (.sync id poll executor) m [.native (.finalize id poll) executor]
  | sync (id poll poll' executor) : Acts m (.sync id poll executor) (m.use id executor)
      [.native (.finalize id poll') executor]

variable {m m' : Engine} {f : Frame} {x : Choice} {fs : List Frame}

theorem acts_of_runCall {call : Call} (h : runCall m call = (m', fs)) : Acts m (.call call) m' fs := by
  cases call with
  | nativeQueueSubmit queue prerequisites tokens =>
    simp only [runCall] at h
    split_ifs at h with hs <;> cases h
    · exact .nativeQueueSubmit queue prerequisites tokens hs.1
    · exact .refused _
  | asyncSubmit executor prerequisites =>
    simp only [runCall] at h
    split_ifs at h with hs he <;> cases h
    · subst he
      exact .asyncSubmitNative prerequisites
    · exact .asyncSubmit executor prerequisites _ _ he (AsyncRuntime.acts_of_runCall rfl)
    · exact .refused _
  | cancel id =>
    simp only [runCall] at h
    split_ifs at h with hs <;> cases h
    · exact .cancel id hs
    · exact .refused _
  | resume id => cases h; exact .resume id

theorem acts_of_runRuntime {frame : AsyncRuntime.Frame} (h : runRuntime m frame x = some (m', fs)) :
    Acts m (.runtime frame) m' fs := by
  cases x with
  | runtime choice =>
    obtain ⟨r, hr, he⟩ := Option.map_eq_some_iff.mp h
    cases he
    exact .runtime frame r.1 r.2 (AsyncRuntime.acts_of_code hr)
  | _ => cases h

theorem acts_of_runDispatch {id : ℕ} {resume : Option ℕ} (hn : m.isNative id = true)
    (h : runDispatch m id resume = some (m', fs)) : Acts m (.runtime (.dispatch id resume)) m' fs := by
  unfold runDispatch at h
  split at h <;> cases h
  · rename_i executor he
    cases resume with
    | none => exact .dispatch id executor hn he
    | some resume => exact .dispatchResume id resume executor hn he
  · exact .noExecutor id resume

theorem runNative_eq {frame : AsyncRuntime.Frame} {executor : NativeQueue}
    (h : runNative m frame executor x = some (m', fs)) : ∃ runtime' fs',
      AsyncRuntime.Acts (fun _ => []) m.runtime frame runtime' fs' ∧ m' = {m with runtime := runtime'} ∧
        fs = fs'.map (wrap executor) := by
  cases x with
  | runtime choice =>
    obtain ⟨r, hr, he⟩ := Option.map_eq_some_iff.mp h
    cases he
    exact ⟨r.1, r.2, AsyncRuntime.acts_of_code hr, rfl, rfl⟩
  | _ => cases h

theorem acts_of_native {frame : AsyncRuntime.Frame} {executor : NativeQueue}
    (h : code m (.native frame executor) x = some (m', fs)) : Acts m (.native frame executor) m' fs := by
  cases frame with
  | execute id =>
    obtain ⟨runtime', fs', ha, rfl, rfl⟩ := runNative_eq h
    exact .execute id executor runtime' fs' ha
  | runStep id => cases h; exact .runStep id _ executor
  | step id =>
    cases x with
    | call call => cases h; exact .nativeCall id executor call
    | finish poll => cases h; exact .nativeFinish id executor poll
    | _ => cases h
  | _ =>
    obtain ⟨runtime', fs', ha, rfl, rfl⟩ := runNative_eq h
    exact .native _ executor runtime' fs' (fun _ => nofun) ha

theorem acts_of_runtime {frame : AsyncRuntime.Frame} (h : code m (.runtime frame) x = some (m', fs)) :
    Acts m (.runtime frame) m' fs := by
  cases frame with
  | dispatch id resume =>
    simp only [code] at h
    split_ifs at h with hn
    · exact acts_of_runDispatch hn h
    · exact acts_of_runRuntime h
  | step id =>
    cases x with
    | call call => cases h; exact .stepCall id call
    | finish poll => cases h; exact .stepFinish id poll
    | _ => cases h
  | _ => exact acts_of_runRuntime h

theorem acts_of_code (h : code m f x = some (m', fs)) : Acts m f m' fs := by
  cases f with
  | runtime frame => exact acts_of_runtime h
  | native frame executor => exact acts_of_native h
  | call call => exact acts_of_runCall (Option.some.inj h)
  | registerExecutor queue request => cases h; exact .registerExecutor queue request
  | getExecutor request =>
    simp only [code] at h
    split at h <;> cases h
    · exact .getExecutor request _ ‹_›
    · exact .notFound request
  | submit request executor =>
    cases h
    exact .submit request executor _ _ (AsyncRuntime.acts_of_runCall rfl)
  | registerSignal id => cases h; exact .registerSignal id
  | cancelStatus id =>
    simp only [code] at h
    split_ifs at h with hs <;> cases h
    · exact .cancelSuspended id hs
    · exact .cancelOther id
  | wait id tokens executor =>
    cases tokens with
    | nil => cases h; exact .waited id executor
    | cons token tokens =>
      simp only [code] at h
      split_ifs at h
      · cases h; exact .wait id token tokens executor
      · split at h <;> cases h
        split
        · exact .wait id token tokens executor
        · exact .waitFailed id token tokens executor
  | record id poll executor =>
    simp only [code] at h
    split_ifs at h
    · split at h <;> cases h
      split
      · exact .record id poll executor
      · exact .recordFailed id poll executor
    · cases h; exact .noRecord id poll executor
  | sync id poll executor =>
    simp only [code] at h
    split_ifs at h
    · split at h <;> cases h
      exact .sync id poll _ executor
    · cases h; exact .noSync id poll executor

/-- Any threads about to make any calls, beside the workers of the pool. -/
def start (workerCount : ℕ) (programs : List (List Call)) : Config Engine Frame :=
  ⟨{}, List.replicate (AsyncRuntime.poolSize workerCount) [.runtime .worker] ++ programs.map (·.map .call)⟩

theorem frame_start {workerCount : ℕ} {programs : List (List Call)} (hf : f ∈ (start workerCount programs).frames) :
    f = .runtime .worker ∨ ∃ call, f = .call call := mem_workers hf

theorem total_start {workerCount : ℕ} {programs : List (List Call)} {g : Frame → ℕ} (hw : g (.runtime .worker) = 0)
    (hc : ∀ call, g (.call call) = 0) : (start workerCount programs).total g = 0 :=
  total_workers hw hc _ _ _

variable {workerCount : ℕ} {programs : List (List Call)} {c c' : Config Engine Frame} {id : ℕ}

def mentions (id : ℕ) : Frame → ℕ
  | .runtime frame | .native frame _ => AsyncRuntime.mentions id frame
  | .registerSignal id' | .cancelStatus id' | .wait id' _ _ | .record id' _ _ | .sync id' _ _ => if id' = id then 1 else 0
  | _ => 0

/-- There is no submission of that number yet. -/
structure Unsubmitted (c : Config Engine Frame) (id : ℕ) : Prop where
  fresh : AsyncRuntime.Fresh c.mem.runtime id
  signal : c.mem.signals id = false
  uses : ∀ executor, (id, executor) ∉ c.mem.uses
  endpoint : c.mem.endpoint id = none
  frames : c.total (mentions id) = 0

theorem mentions_comp_runtime (id : ℕ) : mentions id ∘ Frame.runtime = AsyncRuntime.mentions id := rfl

theorem mentions_comp_wrap (id : ℕ) (executor : NativeQueue) : mentions id ∘ wrap executor = AsyncRuntime.mentions id := by
  funext frame
  cases frame <;> rfl

theorem unsubmitted_step (h : Step code c f x c') (hid : c'.mem.runtime.nextSubmissionId < id)
    (hi : Unsubmitted c id) : Unsubmitted c' id := by
  obtain ⟨fs, n, ha, hn, hn'⟩ := h.measure acts_of_code (mentions id)
  obtain ⟨hfresh, hsignal, huses, hendpoint, hframes⟩ := hi
  rw [hn, Nat.add_eq_zero_iff] at hframes
  obtain ⟨hf, rfl⟩ := hframes
  generalize hm : c.mem = m, hm' : c'.mem = m' at ha hid hfresh hsignal huses hendpoint
  suffices hs : (AsyncRuntime.Fresh m'.runtime id ∧ (fs.map (mentions id)).sum = 0) ∧ m'.signals id = false ∧
      (∀ executor, (id, executor) ∉ m'.uses) ∧ m'.endpoint id = none by
    obtain ⟨⟨h1, h2⟩, h3, h4, h5⟩ := hs
    exact ⟨by rwa [hm'], by rwa [hm'], by rwa [hm'], by rwa [hm'], by rw [hn', h2]⟩
  clear h hn hn' hm hm'
  cases ha with
  | asyncSubmit executor prerequisites submission fs he ha | submit request executor submission fs ha =>
    have hne : m.runtime.nextSubmissionId + 1 ≠ id := Nat.ne_of_lt hid
    refine ⟨(ha.fresh hid rfl hfresh).imp_right fun hz => ?_, hsignal, huses, hendpoint⟩
    rw [List.map_append, List.sum_append, List.map_map, mentions_comp_runtime]
    simpa [mentions, hne] using hz
  | cancel id' hs =>
    have hne : id' ≠ id := by
      rintro rfl
      rw [hsignal] at hs
      cases hs
    exact ⟨⟨⟨hfresh.pending, hfresh.handle, hfresh.queued, hfresh.stored⟩, by simp [mentions, hne]⟩, hsignal, huses,
      hendpoint⟩
  | runtime frame runtime' fs ha =>
    refine ⟨?_, hsignal, huses, hendpoint⟩
    rw [List.map_map]
    exact ha.fresh hid hf hfresh
  | native frame executor runtime' fs hs ha =>
    refine ⟨?_, hsignal, huses, hendpoint⟩
    rw [List.map_map, mentions_comp_wrap]
    exact ha.fresh hid hf hfresh
  | execute id' executor runtime' fs ha =>
    have hne : id' ≠ id := by simpa [mentions, AsyncRuntime.mentions] using hf
    refine ⟨?_, hsignal, fun e => ?_, by simpa [hne.symm] using hendpoint⟩
    · rw [List.map_map, mentions_comp_wrap]
      exact ha.fresh hid hf hfresh
    · simpa [Engine.use, hne.symm] using huses e
  | runStep id' tokens executor =>
    exact ⟨⟨⟨hfresh.pending, hfresh.handle, hfresh.queued, hfresh.stored⟩,
      by simpa [mentions, AsyncRuntime.mentions] using hf⟩, hsignal, huses, hendpoint⟩
  | registerSignal id' =>
    have hne : id' ≠ id := by simpa [mentions] using hf
    exact ⟨⟨hfresh, rfl⟩, by simpa [hne.symm] using hsignal, huses, hendpoint⟩
  | record id' poll executor | recordFailed id' poll executor | sync id' poll poll' executor =>
    have hne : id' ≠ id := by simpa [mentions] using hf
    exact ⟨⟨hfresh, by simp [mentions, AsyncRuntime.mentions, hne]⟩, hsignal,
      fun e => by simpa [Engine.use, hne.symm] using huses e, hendpoint⟩
  | resume id' => exact ⟨⟨hfresh, rfl⟩, hsignal, huses, hendpoint⟩
  | _ => exact ⟨⟨hfresh, by first | rfl | simpa [mentions, AsyncRuntime.mentions] using hf⟩, hsignal, huses, hendpoint⟩

/-- When an executor is looked up for the submission of a native queue, the queue registered last is its own. -/
def ownQueueRegistered : Guard Engine Frame
  | c, .getExecutor request => ∀ queue ∈ request.queue, c.mem.nativeQueue = some queue
  | c, .runtime (.dispatch id (some _)) => ∀ queue ∈ c.mem.queue id, c.mem.nativeQueue = some queue
  | _, _ => True

instance (c : Config Engine Frame) (f : Frame) : Decidable (ownQueueRegistered c f) := by
  unfold ownQueueRegistered
  split <;> infer_instance

/-- The executor is that of the queue of the submission, if it is the submission of a native queue. -/
def Engine.Own (m : Engine) (id : ℕ) (executor : NativeQueue) : Prop := ∀ queue ∈ m.queue id, executor = queue

/-- The dispatches of a submission to a native queue hold an executor of its own queue. -/
def Owned (m : Engine) : Frame → Prop
  | .native (.dispatch id _) executor | .native (.execute id) executor | .native (.push id) executor
  | .native (.cancel id) executor | .native (.markRunning id) executor | .native (.runStep id) executor
  | .native (.step id) executor | .native (.finalize id _) executor | .native (.clear id) executor
  | .wait id _ executor | .record id _ executor | .sync id _ executor => m.Own id executor
  | .native _ _ => False
  | .submit request executor => ∀ queue ∈ request.queue, executor = queue
  | _ => True

structure Owns (c : Config Engine Frame) : Prop where
  unsubmitted : ∀ id, c.mem.runtime.nextSubmissionId < id → Unsubmitted c id
  frames : ∀ f ∈ c.frames, Owned c.mem f
  executor : ∀ id, ∀ executor ∈ c.mem.executor id, c.mem.Own id executor
  uses : ∀ id executor, (id, executor) ∈ c.mem.uses → c.mem.Own id executor
  endpoint : ∀ id, ∀ executor ∈ c.mem.endpoint id, c.mem.Own id executor

theorem Acts.queue_eq (ha : Acts m f m' fs) (hid : id ≤ m.runtime.nextSubmissionId) : m'.queue id = m.queue id := by
  cases ha with
  | submit request executor submission fs ha =>
    have hne : id ≠ m.runtime.nextSubmissionId + 1 := by omega
    simp [hne]
  | _ => rfl

theorem Acts.own (ha : Acts m f m' fs) (hid : id ≤ m.runtime.nextSubmissionId) {executor : NativeQueue}
    (h : m.Own id executor) : m'.Own id executor := by
  unfold Engine.Own
  rwa [ha.queue_eq hid]

theorem Owned.mono {g : Frame} (ha : Acts m f m' fs) (h : Owned m g)
    (hle : ∀ id, 0 < mentions id g → id ≤ m.runtime.nextSubmissionId) : Owned m' g := by
  cases g with
  | native frame executor =>
    cases frame with
    | dispatch id resume | execute id | push id | cancel id | markRunning id | runStep id | step id | finalize id poll
    | clear id => exact ha.own (hle id (by simp [mentions, AsyncRuntime.mentions])) h
    | _ => exact h
  | wait id tokens executor | record id poll executor | sync id poll executor =>
    exact ha.own (hle id (by simp [mentions])) h
  | _ => exact h

/-- A dispatch goes on with the executor that it holds. -/
theorem owned_native {frame : AsyncRuntime.Frame} {executor : NativeQueue} {runtime runtime' : Runtime}
    {fs : List AsyncRuntime.Frame} (ha : AsyncRuntime.Acts (fun _ => []) runtime frame runtime' fs)
    (hs : ∀ id, frame ≠ .step id) (h : Owned m (.native frame executor)) :
    ∀ g ∈ fs.map (wrap executor), Owned m g := by
  intro g hg
  obtain ⟨frame', hf, rfl⟩ := List.mem_map.mp hg
  cases ha with
  | dispatch id resume hb | executeStopped id hs | executePool id | executeHere id | pushFull id | runStep id =>
    cases List.mem_singleton.mp hf
    exact h
  | busy id resume hb | push id | clear id => cases hf
  | stepCall id call | stepFinish id poll => exact absurd rfl (hs id)
  | cancel id m' fs ht | markRunning id m' fs ht | finalize id poll m' fs ht =>
    cases ht with
    | already ht | keep ht hs =>
      cases List.mem_singleton.mp hf
      exact h
    | drain ht hs =>
      rcases List.mem_cons.mp hf with rfl | hf
      · trivial
      · cases List.mem_singleton.mp hf
        exact h
  | _ => exact h.elim

theorem Owns.le_next (hi : Owns c) (hf : f ∈ c.frames) (hm : 0 < mentions id f) :
    id ≤ c.mem.runtime.nextSubmissionId := by
  by_contra hlt
  have hle := le_total (mentions id) hf
  rw [(hi.unsubmitted id (by omega)).frames] at hle
  omega

theorem owned_runtime {fs : List AsyncRuntime.Frame} : ∀ g ∈ fs.map Frame.runtime, Owned m g := by
  intro g hg
  obtain ⟨frame, _, rfl⟩ := List.mem_map.mp hg
  trivial

theorem owned_step (h : Step code c f x c') (hg : ownQueueRegistered c f) (hi : Owns c) :
    ∀ f ∈ c'.frames, Owned c'.mem f := by
  refine h.all hi.frames (fun fs he => ?_) fun g hb ho => ?_
  · have ho := hi.frames f h.mem_frame
    have hexecutor := hi.executor
    have ha := acts_of_code he
    clear he h hi
    generalize c'.mem = m' at ha ⊢
    cases ha with
    | asyncSubmit executor prerequisites submission fs he ha | submit request executor submission fs ha =>
      intro g hg
      rcases List.mem_append.mp hg with hg | hg
      · exact owned_runtime g hg
      · obtain rfl := List.mem_singleton.mp hg
        trivial
    | runtime frame runtime' fs ha => exact owned_runtime
    | dispatch id executor hn he => exact List.forall_mem_singleton.mpr (hexecutor id executor he)
    | dispatchResume id resume executor hn he =>
      refine List.forall_mem_singleton.mpr fun queue hq => ?_
      exact Option.some.inj (he.symm.trans (hg queue hq))
    | getExecutor request executor he =>
      refine List.forall_mem_singleton.mpr fun queue hq => ?_
      exact Option.some.inj (he.symm.trans (hg queue hq))
    | execute id executor runtime' fs ha => exact owned_native ha (fun _ => nofun) ho
    | native frame executor runtime' fs hs ha => exact owned_native ha hs ho
    | nativeCall id executor call => exact List.forall_mem_cons.mpr ⟨trivial, List.forall_mem_singleton.mpr ho⟩
    | stepCall id call => exact List.forall_mem_cons.mpr ⟨trivial, List.forall_mem_singleton.mpr trivial⟩
    | _ => first | exact List.forall_mem_nil _ | exact List.forall_mem_singleton.mpr ho
  · obtain ⟨fs, he⟩ := h.runs_code
    exact ho.mono (acts_of_code he) fun id hm => hi.le_next hb.mem hm

theorem Acts.executor (ha : Acts m f m' fs) {executor : NativeQueue} (he : executor ∈ m'.executor id) :
    executor ∈ m.executor id ∧ m'.queue id = m.queue id ∨
      ∃ request, f = .submit request executor ∧ m'.queue id = request.queue := by
  cases ha with
  | submit request executor' submission fs ha =>
    by_cases hid : id = m.runtime.nextSubmissionId + 1
    · subst hid
      simp only [Function.update_self, Option.mem_some_iff] at he ⊢
      exact .inr ⟨request, by rw [he], rfl⟩
    · exact .inl ⟨by simpa [hid] using he, by simp [hid]⟩
  | _ => exact .inl ⟨he, rfl⟩

theorem executor_step (h : Step code c f x c') (hi : Owns c) {executor : NativeQueue}
    (he : executor ∈ c'.mem.executor id) : c'.mem.Own id executor := by
  obtain ⟨fs, hc⟩ := h.runs_code
  have ho := hi.frames f h.mem_frame
  unfold Engine.Own
  rcases (acts_of_code hc).executor he with ⟨he, hq⟩ | ⟨request, rfl, hq⟩
  · rw [hq]
    exact hi.executor id executor he
  · rw [hq]
    exact ho

/-- Executions, records and synchronisations, and the endpoint, go with the executor that a frame holds. -/
theorem Acts.uses (ha : Acts m f m' fs) (ho : Owned m f) {executor : NativeQueue} :
    ((id, executor) ∈ m'.uses → (id, executor) ∈ m.uses ∨ 0 < mentions id f ∧ m.Own id executor) ∧
      (executor ∈ m'.endpoint id → executor ∈ m.endpoint id ∨ 0 < mentions id f ∧ m.Own id executor) := by
  cases ha with
  | execute id' executor' runtime' fs ha =>
    refine ⟨fun hu => ?_, fun he => ?_⟩
    · rcases List.mem_cons.mp hu with hu | hu
      · cases hu
        exact .inr ⟨by simp [mentions, AsyncRuntime.mentions], ho⟩
      · exact .inl hu
    · by_cases hid : id = id'
      · subst hid
        simp only [Function.update_self, Option.mem_some_iff] at he
        exact .inr ⟨by simp [mentions, AsyncRuntime.mentions], he ▸ ho⟩
      · exact .inl (by simpa [hid] using he)
  | record id' poll executor' | recordFailed id' poll executor' | sync id' poll poll' executor' =>
    refine ⟨fun hu => ?_, .inl⟩
    rcases List.mem_cons.mp hu with hu | hu
    · cases hu
      exact .inr ⟨by simp [mentions], ho⟩
    · exact .inl hu
  | _ => exact ⟨.inl, .inl⟩

theorem owns_start : Owns (start workerCount programs) where
  unsubmitted id _ := ⟨⟨rfl, rfl, by simp [start], rfl⟩, rfl, by simp [start], rfl, total_start rfl fun _ => rfl⟩
  frames f hf := by
    rcases frame_start hf with rfl | ⟨call, rfl⟩ <;> trivial
  executor _ _ h := absurd h (by simp [start])
  uses _ _ h := absurd h (by simp [start])
  endpoint _ _ h := absurd h (by simp [start])

theorem Acts.next_le (ha : Acts m f m' fs) : m.runtime.nextSubmissionId ≤ m'.runtime.nextSubmissionId := by
  cases ha with
  | runtime frame runtime' fs ha | execute id executor runtime' fs ha | native frame executor runtime' fs hs ha =>
    exact AsyncRuntime.Acts.next_le ha
  | asyncSubmit executor prerequisites submission fs he ha | submit request executor submission fs ha =>
    exact Nat.le_succ _
  | _ => exact le_rfl

theorem owns_step (h : Step code c f x c') (hg : ownQueueRegistered c f) (hi : Owns c) : Owns c' := by
  obtain ⟨fs, he⟩ := h.runs_code
  have ha := acts_of_code he
  have hu : ∀ id, c'.mem.runtime.nextSubmissionId < id → Unsubmitted c' id := fun id hid =>
    unsubmitted_step h hid (hi.unsubmitted id (ha.next_le.trans_lt hid))
  have hle : ∀ id executor, (id, executor) ∈ c.mem.uses ∨ executor ∈ c.mem.endpoint id →
      id ≤ c.mem.runtime.nextSubmissionId := fun id executor hm => by
    by_contra hid
    have hn := hi.unsubmitted id (by omega)
    rcases hm with hm | hm
    · exact hn.uses executor hm
    · rw [hn.endpoint] at hm
      cases hm
  have hf := hi.frames f h.mem_frame
  refine ⟨hu, owned_step h hg hi, fun id executor => executor_step h hi, fun id executor hm => ?_,
    fun id executor hm => ?_⟩
  · rcases (ha.uses hf).1 hm with hm | ⟨hid, ho⟩
    · exact ha.own (hle id executor (.inl hm)) (hi.uses id executor hm)
    · exact ha.own (hi.le_next h.mem_frame hid) ho
  · rcases (ha.uses hf).2 hm with hm | ⟨hid, ho⟩
    · exact ha.own (hle id executor (.inr hm)) (hi.endpoint id executor hm)
    · exact ha.own (hi.le_next h.mem_frame hid) ho

theorem owns_reaches (h : Reaches code ownQueueRegistered (start workerCount programs) c) : Owns c := by
  induction h with
  | refl => exact owns_start
  | step _ hg hs ih => exact owns_step hs hg ih

/-- In every run in which each lookup of an executor for the submission of a native queue finds the queue of the
submission registered, every submission is executed, resumed, cancelled, recorded and synchronised on its own queue. -/
theorem submission_on_own_queue (h : Reaches code ownQueueRegistered (start workerCount programs) c) :
    ∀ id queue, c.mem.queue id = some queue → (∀ executor, (id, executor) ∈ c.mem.uses → executor = queue) ∧
      (∀ executor, c.mem.endpoint id = some executor → executor = queue) := by
  intro id queue hq
  have hi := owns_reaches h
  exact ⟨fun executor hm => hi.uses id executor hm queue hq, fun executor hm => hi.endpoint id executor hm queue hq⟩

/-- Two native queues, each with a submission; then the first submission is cancelled. -/
def cancelAfterSecondQueue : List (List Call) :=
  [[.nativeQueueSubmit ⟨{}, {opaqueBinding := 1}⟩ [] [], .nativeQueueSubmit ⟨{}, {opaqueBinding := 2}⟩ [] [], .cancel 1]]

/-- The first submission suspends, and its cancellation goes to the second queue. -/
theorem cancelled_on_other_queue : ¬ ∀ c, Reaches code free (start 1 cancelAfterSecondQueue) c →
    ∀ id queue, c.mem.queue id = some queue → (∀ executor, (id, executor) ∈ c.mem.uses → executor = queue) ∧
      (∀ executor, c.mem.endpoint id = some executor → executor = queue) := by
  intro h
  have he : (runs code free (start 1 cancelAfterSecondQueue)
      (.flatten [.replicate 10 (1, .runtime .full), [(1, .finish .suspend)], .replicate 16 (1, .runtime .full),
        [(1, .finish .suspend)], .replicate 13 (1, .runtime .full)])).map
        (fun c => (c.mem.queue 1, c.mem.endpoint 1)) =
      some (some ⟨{}, {opaqueBinding := 1}⟩, some ⟨{}, {opaqueBinding := 2}⟩) := rfl
  obtain ⟨c, hc, he⟩ := Option.map_eq_some_iff.mp he
  simp only [Prod.mk.injEq] at he
  have ho := (h c (reaches_of_runs hc) 1 _ he.1).2 _ he.2
  revert ho
  decide

/-- A suspended submission cancelled before the next native submission. -/
theorem cancelled_on_own_queue : ∃ c, Reaches code ownQueueRegistered
    (start 1 [[.nativeQueueSubmit ⟨{}, {opaqueBinding := 1}⟩ [] [], .cancel 1,
      .nativeQueueSubmit ⟨{}, {opaqueBinding := 2}⟩ [] []]]) c ∧
    c.mem.uses.length = 3 ∧ ∀ executor, (1, executor) ∈ c.mem.uses → executor = ⟨{}, {opaqueBinding := 1}⟩ := by
  have he : (runs code ownQueueRegistered
      (start 1 [[.nativeQueueSubmit ⟨{}, {opaqueBinding := 1}⟩ [] [], .cancel 1,
        .nativeQueueSubmit ⟨{}, {opaqueBinding := 2}⟩ [] []]])
      (.flatten [.replicate 10 (1, .runtime .full), [(1, .finish .suspend)], .replicate 23 (1, .runtime .full)])).map
        (fun c => (c.mem.queue 1, c.mem.uses.length)) = some (some ⟨{}, {opaqueBinding := 1}⟩, 3) := rfl
  obtain ⟨c, hc, he⟩ := Option.map_eq_some_iff.mp he
  simp only [Prod.mk.injEq] at he
  exact ⟨c, reaches_of_runs hc, he.2, (submission_on_own_queue (reaches_of_runs hc) 1 _ he.1).1⟩

end Zpc.AsyncRuntimeAbi
