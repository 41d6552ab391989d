import Zpc.AsyncRuntime

/-!
# Submissions through the local interface services

`submit` of `LocalInterfaceServices` over the runtime of `Zpc.AsyncRuntime`: the request goes
to the runtime before the session is looked up. What the threads do between the two, the
step of the request among it, is a run of the runtime, beside which sessions may be opened
and closed.
-/
namespace Zpc.LocalInterfaceServices
open AsyncRuntime Interleaving

inductive AsyncBackend
  | inlineHost
  | threadPool
  | asio
  | process
  | cuda
  | nccl
  | rocm
  | sycl
  | vulkan
  | custom
  deriving DecidableEq

inductive AsyncQueueClass
  | control
  | io
  | compute
  | transfer
  | graphics
  | present
  | collective
  | copy
  deriving DecidableEq

structure AsyncEndpoint where
  backend : AsyncBackend := .inlineHost
  device : ℤ := -1
  stream : ℤ := -1
  nativeHandle : Option ℕ := none
  deriving DecidableEq

/-- A request: the executor by its name, the label and the queue of the task. -/
structure AsyncSubmission where
  executor : String := "inline"
  label : String := ""
  queue : AsyncQueueClass := .control
  endpoint : AsyncEndpoint := {}
  prerequisites : List Event := []
  cancellation : Option ℕ := none
  stopOnPrerequisiteFailure : Bool := true
  deriving DecidableEq

/-- The handle is the number of the submission, the cancellation that of its stop source. -/
structure SubmissionRecord where
  handle : ℕ
  cancellation : ℕ
  executor : String
  label : String
  backend : AsyncBackend
  queue : AsyncQueueClass
  deriving DecidableEq

structure Services where
  /-- The executors that are registered with the runtime. -/
  executors : String → Option Executor
  runtime : Config Runtime Frame
  nextStopSource : ℕ
  knownExecutors : List String
  /-- The open sessions with their submissions. -/
  sessions : ℕ → Option (ℕ → Option SubmissionRecord)

inductive Outcome
  | returned (handle : Option ℕ)
  | threw
  deriving DecidableEq

/-- How the first part of `submit` ends. -/
inductive Passed
  | refused
  | threw
  | accepted (record : SubmissionRecord)

def AsyncSubmission.executorName (s : AsyncSubmission) : String := if s.executor = "" then "inline" else s.executor

def inferBackend (executor : String) (endpoint : AsyncEndpoint) : AsyncBackend :=
  if endpoint.backend ≠ .inlineHost ∨ endpoint.nativeHandle ≠ none ∨ 0 ≤ endpoint.device ∨ 0 ≤ endpoint.stream then
    endpoint.backend
  else if executor = "thread_pool" then .threadPool
  else if executor = "inline" then .inlineHost
  else endpoint.backend

def submissionExecutorName (fallback : String) : String := if fallback = "" then "inline" else fallback

namespace Services
def rememberExecutor (m : Services) (executor : String) : Services :=
  if executor = "" ∨ executor ∈ m.knownExecutors then m
  else {m with knownExecutors := m.knownExecutors ++ [executor]}

/-- `submit` of the runtime, which throws when it does not know the executor. The frames that it
leaves to the calling thread come first. -/
def runtimeSubmit (m : Services) (s : AsyncSubmission) : Option (ℕ × Services) :=
  (m.executors s.executor).map fun executor =>
    let r := runCall m.runtime.mem
      (.submit ⟨executor, s.prerequisites, s.cancellation, s.stopOnPrerequisiteFailure⟩)
    (m.runtime.mem.nextSubmissionId + 1, {m with runtime := ⟨r.1, r.2 :: m.runtime.threads⟩})

/-- `submit` as far as the call of the runtime. -/
def pass (m : Services) (session : ℕ) (s : AsyncSubmission) : Services × Passed :=
  if session = 0 then (m, .refused)
  else
    let label := if s.label = "" then "submission" else s.label
    let token := m.nextStopSource
    let m := ({m with nextStopSource := token + 1} : Services).rememberExecutor s.executorName
    match m.runtimeSubmit {s with executor := s.executorName, label := label, cancellation := some token} with
    | none => (m, .threw)
    | some (id, m) => (m, .accepted {
        handle := id
        cancellation := token
        executor := submissionExecutorName s.executorName
        label := label
        backend := inferBackend s.executorName s.endpoint
        queue := s.queue })

/-- The rest, under the lock. -/
def record (m : Services) (session : ℕ) (r : SubmissionRecord) : Services × Outcome :=
  match m.sessions session with
  | none => (m, .returned none)
  | some submissions =>
    ({m with sessions := Function.update m.sessions session (some (Function.update submissions r.handle (some r)))},
      .returned (some r.handle))

/-- The whole call; `found` is what it finds when it comes to record the submission. -/
def submit (m found : Services) (session : ℕ) (s : AsyncSubmission) : Services × Outcome :=
  match m.pass session s with
  | (m, .refused) => (m, .returned none)
  | (m, .threw) => (m, .threw)
  | (_, .accepted r) => found.record session r

end Services

/-- The runtime has run on, whatever became of the sessions. -/
def Meanwhile (body : ℕ → List Call) (m found : Services) : Prop := Reaches (code body) free m.runtime found.runtime

/-- The runtime has nothing of the request, so that its step can never be executed, and the tables are as before. -/
structure Untouched (m m' : Services) : Prop where
  runtime : m'.runtime = m.runtime
  sessions : m'.sessions = m.sessions

section Submit
variable {body : ℕ → List Call} {m found : Services} {session : ℕ} {s : AsyncSubmission}

theorem next_le {c c' : Config Runtime Frame} (h : Reaches (code body) free c c') :
    c.mem.nextSubmissionId ≤ c'.mem.nextSubmissionId := by
  induction h with
  | refl => exact le_rfl
  | step _ _ hs ih =>
    obtain ⟨fs, he⟩ := hs.runs_code
    exact ih.trans (acts_of_code he).next_le

@[simp] theorem rememberExecutor_executors (m : Services) (executor : String) :
    (m.rememberExecutor executor).executors = m.executors := by
  unfold Services.rememberExecutor
  split <;> rfl

@[simp] theorem rememberExecutor_runtime (m : Services) (executor : String) :
    (m.rememberExecutor executor).runtime = m.runtime := by
  unfold Services.rememberExecutor
  split <;> rfl

/-- A request is refused for the number of its session alone; the runtime throws or makes a submission of it. -/
theorem pass_cases (m : Services) (session : ℕ) (s : AsyncSubmission) :
    (session = 0 ∧ m.pass session s = (m, .refused)) ∨
    (session ≠ 0 ∧ m.executors s.executorName = none ∧ (m.pass session s).2 = .threw) ∨
    (session ≠ 0 ∧ (m.executors s.executorName).isSome ∧ ∃ r, (m.pass session s).2 = .accepted r ∧
      (m.pass session s).1.runtime.mem.nextSubmissionId = m.runtime.mem.nextSubmissionId + 1) := by
  by_cases h0 : session = 0
  · exact .inl ⟨h0, if_pos h0⟩
  · simp only [Services.pass, if_neg h0, Services.runtimeSubmit, rememberExecutor_executors, rememberExecutor_runtime]
    cases he : m.executors s.executorName with
    | none => exact .inr (.inl ⟨h0, rfl, rfl⟩)
    | some executor => exact .inr (.inr ⟨h0, rfl, _, rfl, rfl⟩)

/-- An empty handle comes back from a session that has no number, or from one not found in the end. -/
theorem submit_untouched_iff (h : Meanwhile body (m.pass session s).1 found) :
    ((m.submit found session s).2 = .returned none → Untouched m (m.submit found session s).1) ↔
      session = 0 ∨ m.executors s.executorName = none ∨ (found.sessions session).isSome := by
  unfold Services.submit
  obtain ⟨h0, he⟩ | ⟨h0, hnone, he⟩ | ⟨h0, hsome, r, he, hid⟩ := pass_cases m session s
  · rw [he]
    exact iff_of_true (fun _ => ⟨rfl, rfl⟩) (.inl h0)
  · generalize m.pass session s = p at he
    obtain ⟨m', passed⟩ := p
    cases he
    exact iff_of_true (fun hr => by cases hr) (.inr (.inl hnone))
  · have hne : m.executors s.executorName ≠ none := Option.isSome_iff_ne_none.mp hsome
    generalize m.pass session s = p at he hid h
    obtain ⟨m', passed⟩ := p
    cases he
    have hlt : m.runtime.mem.nextSubmissionId < found.runtime.mem.nextSubmissionId :=
      Nat.lt_of_lt_of_le (Nat.lt_succ_self _) (hid.ge.trans (next_le h))
    show ((found.record session r).2 = _ → _) ↔ _
    unfold Services.record
    cases hs : found.sessions session with
    | none =>
      apply iff_of_false
      · intro hall
        have hrun := (hall rfl).runtime
        rw [show found.runtime = m.runtime from hrun] at hlt
        exact Nat.lt_irrefl _ hlt
      · rintro (h | h | h)
        · exact h0 h
        · exact hne h
        · cases h
    | some submissions => exact iff_of_true (fun hr => by cases hr) (.inr (.inr rfl))

end Submit

section Example
/-- A new runtime beside services without a session. -/
def fresh : Services where
  executors name := if name = "inline" then some .inlineHost else if name = "thread_pool" then some .threadPool else none
  runtime := start 1 []
  nextStopSource := 0
  knownExecutors := ["inline", "thread_pool"]
  sessions _ := none

def closedMeanwhile : Option (Config Runtime Frame) :=
  runs (code fun _ => []) free (fresh.pass 1 {}).1.runtime (.replicate 9 (0, .finish .completed))

/-- The session is not open: an empty handle comes back, and the step has been executed. -/
theorem executed_without_session : ¬ ∀ m found : Services,
    Meanwhile (fun _ => []) (m.pass 1 {}).1 found → (m.submit found 1 {}).2 = .returned none →
      Untouched m (m.submit found 1 {}).1 ∧ (m.submit found 1 {}).1.runtime.mem.executions 1 = 0 := by
  intro h
  have he : closedMeanwhile.map (fun c => (c.threads, c.mem.executions 1)) = some ([[], [.worker]], 1) := rfl
  obtain ⟨c, hc, he⟩ := Option.map_eq_some_iff.mp he
  have hex : c.mem.executions 1 = 1 := congrArg Prod.snd he
  have hzero := (h fresh {(fresh.pass 1 {}).1 with runtime := c} (reaches_of_runs hc) rfl).2
  exact absurd (hex.symm.trans hzero) (by decide)

/-- With the session open, the submission is recorded. -/
theorem untouched_in_session :
    let m : Services := {fresh with sessions := Function.update fresh.sessions 1 (some fun _ => none)}
    ((m.submit (m.pass 1 {}).1 1 {}).2 = .returned none → Untouched m (m.submit (m.pass 1 {}).1 1 {}).1) ↔
      1 = 0 ∨ m.executors ({} : AsyncSubmission).executorName = none ∨ ((m.pass 1 {}).1.sessions 1).isSome :=
  submit_untouched_iff (show Meanwhile (fun _ => []) _ _ from .refl)

end Example

end Zpc.LocalInterfaceServices
