import Zpc.AsyncRuntime

/-!
# Resuming a suspended submission

A resume that returns `true` is answered by a further execution of the step, unless it
finds `inFlight` still set by the very execution whose suspension it has read.
-/
namespace Zpc.AsyncRuntime
open Interleaving

/-- No resume finds `inFlight` held by a dispatch that has only to clear it when the step has not
been executed again since the resume read the status. -/
def clearsFirst : Guard Runtime Frame
  | c, .dispatch id (some executions) => c.mem.inFlight id = true → 0 < c.total (clearing id) →
      executions < c.mem.executions id ∨ c.mem.stopRequested id = true
  | _, _ => True

instance (c : Config Runtime Frame) (f : Frame) : Decidable (clearsFirst c f) := by
  unfold clearsFirst
  split <;> infer_instance

def executing (id : ℕ) : Frame → ℕ
  | .runStep id' | .step id' | .finalize id' _ => if id' = id then 1 else 0
  | _ => 0

def Reads (c : Config Runtime Frame) : Frame → Prop
  | .dispatch id (some executions) => executions ≤ c.mem.executions id ∧
      (executions = c.mem.executions id → c.total (inside id) = 0)
  | _ => True

/-- The step has been executed since the resume read the status, or will be unless it is stopped. -/
def Answered (c : Config Runtime Frame) (resume : ℕ × ℕ) : Prop :=
  resume.2 ≤ c.mem.executions resume.1 ∧ (resume.2 < c.mem.executions resume.1 ∨
    c.mem.stopRequested resume.1 = true ∨ 0 < c.total (due resume.1) + c.mem.queue.count resume.1)

structure Resumes (c : Config Runtime Frame) : Prop where
  fresh : ∀ id, c.mem.nextSubmissionId < id → c.mem.submissions id = {}
  holder : ∀ id, c.total (holding id) + c.mem.queue.count id = (c.mem.inFlight id).toNat
  runs : ∀ id, 0 < c.total (executing id) →
    c.mem.status (.submission id) = .running ∨ (c.mem.status (.submission id)).isTerminal = true
  reads : ∀ f ∈ c.frames, Reads c f
  answered : ∀ resume ∈ c.mem.resumed, Answered c resume
  bottom : c.Bottom (· = .worker)

variable {body : ℕ → List Call} {workerCount : ℕ} {programs : List (List Call)} {c c' : Config Runtime Frame}
  {m m' : Runtime} {f : Frame} {x : Choice} {fs : List Frame} {id k : ℕ}

theorem executing_le_one (hi : c.total (holding id) + c.mem.queue.count id = (c.mem.inFlight id).toNat) :
    c.total (executing id) ≤ 1 := by
  have hle : c.total (executing id) ≤ c.total (holding id) :=
    total_mono c fun f => by cases f <;> simp [executing, holding, due, inside, clearing]
  have hn := Bool.toNat_le (c.mem.inFlight id)
  omega

theorem runs_step (h : Step (code body) c f x c')
    (hh : c.total (holding id) + c.mem.queue.count id = (c.mem.inFlight id).toNat)
    (hi : 0 < c.total (executing id) →
      c.mem.status (.submission id) = .running ∨ (c.mem.status (.submission id)).isTerminal = true) :
    0 < c'.total (executing id) →
      c'.mem.status (.submission id) = .running ∨ (c'.mem.status (.submission id)).isTerminal = true := by
  have hone := executing_le_one hh
  obtain ⟨fs, r, ha, hr, hr'⟩ := h.measure acts_of_code (executing id)
  rw [hr] at hi hone
  rw [hr']
  generalize c.mem = m, c'.mem = m' at ha hi ⊢
  clear h hh hr hr'
  cases ha with
  | invokeOther callback rest =>
    rw [List.map_append, List.map_map, List.sum_append, sum_calls (g := executing id) Frame.call fun _ => rfl]
    exact hi
  | complete event status m' fs ht =>
    rw [ht.sum fun _ => rfl]
    rcases ht.status_eq (.submission id) with hs | ⟨hs, _⟩
    · rw [hs]
      exact hi
    · cases hs
  | markFailed id' m' fs ht | markCancelled id' m' fs ht | cancel id' m' fs ht =>
    rw [ht.sum fun _ => rfl]
    rcases ht.status_eq (.submission id) with hs | ⟨_, _, hn⟩
    · rw [hs]
      exact hi
    · exact fun _ => .inr (by rw [hn]; rfl)
  | markRunning id' m' fs ht =>
    rw [ht.sum fun _ => rfl]
    intro hpos
    by_cases hid : id' = id
    · subst hid
      cases ht with
      | already ht => exact .inr ht
      | keep ht hs => exact .inl (by simp)
      | drain ht hs => cases hs
    · rcases ht.status_eq (.submission id) with hs | ⟨hs, _, _⟩
      · rw [hs]
        simpa [executing, hid] using hi (by simpa [executing, hid] using hpos)
      · exact absurd (Event.submission.inj hs).symm hid
  | finalize id' poll m' fs ht =>
    rw [ht.sum fun _ => rfl]
    intro hpos
    rcases ht.status_eq (.submission id) with hs | ⟨hs, _, _⟩
    · rw [hs]
      refine hi ?_
      simp [executing] at hpos
      omega
    · simp [executing, Event.submission.inj hs] at hpos hone
      omega
  | onComplete event callback m' fs hr | register id' event rest m' fs hr => cases hr <;> simpa [executing] using hi
  | _ => first | exact hi | simpa [executing, Runtime.recordResume, Runtime.allocate] using hi

/-- Between two executions of a step no further one is inside it. -/
theorem executions_step (h : Step (code body) c f x c') (id : ℕ) : c.mem.executions id < c'.mem.executions id ∨
    c'.mem.executions id = c.mem.executions id ∧ c'.total (inside id) ≤ c.total (inside id) := by
  obtain ⟨fs, r, ha, hr, hr'⟩ := h.measure acts_of_code (inside id)
  rw [hr, hr']
  generalize c.mem = m, c'.mem = m' at ha ⊢
  clear h hr hr'
  cases ha with
  | runStep id' =>
    by_cases hid : id' = id
    · exact .inl (by simp [hid])
    · exact .inr ⟨by simp [Ne.symm hid], by simp [inside, hid]⟩
  | invokeOther callback rest =>
    rw [List.map_append, List.map_map, List.sum_append, sum_calls (g := inside id) Frame.call fun _ => rfl]
    exact .inr ⟨rfl, le_refl _⟩
  | complete event status m' fs ht | markFailed id' m' fs ht | markCancelled id' m' fs ht
  | cancel id' m' fs ht | markRunning id' m' fs ht | finalize id' poll m' fs ht =>
    cases ht <;> exact .inr ⟨rfl, by simp [inside]⟩
  | onComplete event callback m' fs hr | register id' event rest m' fs hr =>
    cases hr <;> exact .inr ⟨rfl, by simp [inside]⟩
  | _ => exact .inr ⟨rfl, by simp [inside]⟩

theorem executions_mono (h : Step (code body) c f x c') (id : ℕ) : c.mem.executions id ≤ c'.mem.executions id := by
  rcases executions_step h id with hlt | ⟨heq, _⟩
  · exact hlt.le
  · exact heq.ge

/-- A resume goes on to dispatch with the number of executions at its look at the status. -/
theorem dispatch_of_mem {executions : ℕ} (ha : Acts body m f m' fs) (hg : .dispatch id (some executions) ∈ fs) :
    executions = m'.executions id ∧
      (m'.status (.submission id) = .suspended ∨ m'.status (.submission id) = .pending) := by
  cases ha with
  | resumable id' hs =>
    obtain ⟨rfl, rfl⟩ : id = id' ∧ executions = m.executions id' := by simpa using hg
    exact ⟨rfl, hs⟩
  | complete event status m' fs ht | markFailed id' m' fs ht | markCancelled id' m' fs ht
  | cancel id' m' fs ht | markRunning id' m' fs ht | finalize id' poll m' fs ht => cases ht <;> simp at hg
  | onComplete event callback m' fs hr | register id' event rest m' fs hr => cases hr <;> simp at hg
  | _ => simp at hg

theorem reads_step (h : Step (code body) c f x c') (hi : Resumes c) : ∀ f ∈ c'.frames, Reads c' f := by
  refine h.all hi.reads (fun fs he g hg => ?_) fun g _ hg => ?_
  · cases g with
    | dispatch id resume =>
      cases resume with
      | none => trivial
      | some executions =>
        obtain ⟨hk, hs⟩ := dispatch_of_mem (acts_of_code he) hg
        refine ⟨hk.le, fun _ => ?_⟩
        have hruns := runs_step h (hi.holder id) (hi.runs id)
        have hle : c'.total (inside id) ≤ c'.total (executing id) :=
          total_mono c' fun f => by cases f <;> simp [inside, executing]
        rcases Nat.eq_zero_or_pos (c'.total (executing id)) with h0 | hpos
        · omega
        · rcases hs with hs | hs <;> simp [hs] at hruns <;> omega
    | _ => trivial
  · cases g with
    | dispatch id resume =>
      cases resume with
      | none => trivial
      | some executions =>
        obtain ⟨hle, h0⟩ := hg
        rcases executions_step h id with hlt | ⟨heq, hin⟩
        · exact ⟨by omega, fun he => by omega⟩
        · refine ⟨by omega, fun he => ?_⟩
          have := h0 (by omega)
          omega
    | _ => trivial

/-- A stop request is never taken back. -/
theorem stopRequested_step (h : Step (code body) c f x c')
    (hf : ∀ id, c.mem.nextSubmissionId < id → c.mem.submissions id = {}) (hs : c.mem.stopRequested id = true) :
    c'.mem.stopRequested id = true := by
  obtain ⟨fs, he⟩ := h.runs_code
  have ha := acts_of_code he
  generalize c.mem = m, c'.mem = m' at ha hf hs ⊢
  cases ha with
  | submit submission hp | submitWaiting submission hp =>
    by_cases hid : id = m.nextSubmissionId + 1
    · simp [Runtime.stopRequested, hf id (by omega)] at hs
    · simpa [Runtime.stopRequested, Runtime.allocate, hid] using hs
  | requestStop token =>
    cases hc : (m.submissions id).cancellation with
    | none => simp [Runtime.stopRequested, hc] at hs
    | some token' =>
      by_cases ht : token' = token <;> simp_all [Runtime.stopRequested]
  | complete event status m' fs ht | markFailed id m' fs ht | markCancelled id m' fs ht
  | cancel id m' fs ht | markRunning id m' fs ht | finalize id poll m' fs ht => cases ht <;> exact hs
  | onComplete event callback m' fs hr | register id event rest m' fs hr => cases hr <;> exact hs
  | _ => exact hs

/-- A dispatch under way reaches the step unless it is stopped. -/
theorem due_step (h : Step (code body) c f x c') (hd : 0 < c.total (due id) + c.mem.queue.count id) :
    c.mem.executions id < c'.mem.executions id ∨ c.mem.stopRequested id = true ∨
      0 < c'.total (due id) + c'.mem.queue.count id := by
  obtain ⟨fs, r, ha, hr, hr'⟩ := h.measure acts_of_code (due id)
  rw [hr] at hd
  rw [hr']
  generalize c.mem = m, c'.mem = m' at ha hd ⊢
  clear h hr hr'
  cases ha with
  | invokeOther callback rest =>
    rw [List.map_append, List.map_map, List.sum_append, sum_calls (g := due id) Frame.call fun _ => rfl]
    exact .inr (.inr hd)
  | runStep id' =>
    by_cases hid : id' = id
    · exact .inl (by simp [hid])
    · exact .inr (.inr (by simpa [due, hid] using hd))
  | executeStopped id' hs | takeStopped id' hs =>
    by_cases hid : id' = id
    · exact .inr (.inl (hid ▸ hs))
    · exact .inr (.inr (by simpa [due, hid] using hd))
  | push id' =>
    have hc : (m.queue ++ [id']).count id = m.queue.count id + due id (.push id') := by
      simp [due, List.count_singleton]
    refine .inr (.inr ?_)
    simp only [hc, List.map_nil, List.sum_nil]
    omega
  | dequeue id' queue hq =>
    have hc : m.queue.count id = due id (.take id') + queue.count id := by
      simp [due, hq.count_eq, List.count_cons, Nat.add_comm]
    refine .inr (.inr ?_)
    simp only [List.map_cons, List.sum_cons]
    omega
  | dispatch id' resume hf =>
    have h0 : due id (.dispatch id' resume) = 0 := rfl
    refine .inr (.inr ?_)
    change 0 < _ + r + m.queue.count id
    omega
  | complete event status m' fs ht | markFailed id' m' fs ht | markCancelled id' m' fs ht
  | cancel id' m' fs ht | markRunning id' m' fs ht | finalize id' poll m' fs ht =>
    rw [ht.sum fun _ => rfl]
    cases ht <;> exact .inr (.inr (by simpa [due] using hd))
  | onComplete event callback m' fs hr | register id' event rest m' fs hr =>
    rw [hr.sum fun _ => rfl]
    cases hr <;> exact .inr (.inr (by simpa [due] using hd))
  | _ => exact .inr (.inr hd)

theorem Answered.step {resume : ℕ × ℕ} (h : Step (code body) c f x c')
    (hf : ∀ id, c.mem.nextSubmissionId < id → c.mem.submissions id = {}) (ha : Answered c resume) : Answered c' resume := by
  obtain ⟨hle, ha⟩ := ha
  have hex := executions_mono h resume.1
  refine ⟨hle.trans hex, ?_⟩
  rcases ha with ha | hs | hd
  · exact .inl (ha.trans_le hex)
  · exact .inr (.inl (stopRequested_step h hf hs))
  · rcases due_step h hd with hlt | hs | hd
    · exact .inl (hle.trans_lt hlt)
    · exact .inr (.inl (stopRequested_step h hf hs))
    · exact .inr (.inr hd)

/-- A resume that finds the submission in flight finds a dispatch on its way to the step. -/
theorem Resumes.answered_busy (hi : Resumes c) (hg : clearsFirst c (.dispatch id (some k)))
    (hm : .dispatch id (some k) ∈ c.frames) (hf : c.mem.inFlight id = true) : Answered c (id, k) := by
  obtain ⟨hle, hin⟩ := hi.reads _ hm
  refine ⟨hle, ?_⟩
  rcases hle.lt_or_eq with hlt | heq
  · exact .inl hlt
  · have hh := hi.holder id
    rw [total_holding, hin heq, hf] at hh
    rcases Nat.eq_zero_or_pos (c.total (clearing id)) with h0 | hpos
    · refine .inr (.inr ?_)
      simp only [Bool.toNat_true] at hh ⊢
      omega
    · exact (hg hf hpos).imp_right .inl

theorem answered_step (h : Step (code body) c f x c') (hg : clearsFirst c f) (hi : Resumes c) :
    ∀ resume ∈ c'.mem.resumed, Answered c' resume := by
  intro resume hm
  by_cases hold : resume ∈ c.mem.resumed
  · exact (hi.answered resume hold).step h hi.fresh
  · have hnew : ∃ id, f = .dispatch id (some resume.2) ∧ id = resume.1 := by
      obtain ⟨fs, he⟩ := h.runs_code
      have ha := acts_of_code he
      generalize c.mem = m, c'.mem = m' at ha hm hold
      cases ha with
      | busy id k hf | dispatch id k hf =>
        cases k with
        | none => exact absurd hm hold
        | some k =>
          obtain rfl : resume = (id, k) := by simpa [Runtime.recordResume, hold] using hm
          exact ⟨id, rfl, rfl⟩
      | complete event status m' fs ht | markFailed id m' fs ht | markCancelled id m' fs ht
      | cancel id m' fs ht | markRunning id m' fs ht | finalize id poll m' fs ht => cases ht <;> exact absurd hm hold
      | onComplete event callback m' fs hr | register id event rest m' fs hr => cases hr <;> exact absurd hm hold
      | _ => exact absurd hm hold
    obtain ⟨id, rfl, rfl⟩ := hnew
    cases hf : c.mem.inFlight resume.1 with
    | true => exact (hi.answered_busy hg h.mem_frame hf).step h hi.fresh
    | false =>
      obtain ⟨fs, he⟩ := h.runs_code
      have hfs : .execute resume.1 ∈ fs := by
        have he' := he
        simp only [code, hf, Bool.false_eq_true, if_false, Option.some.injEq, Prod.mk.injEq] at he'
        simp [← he'.2]
      have hdue := le_total (due resume.1) (h.mem_of_new he hfs)
      simp only [due, if_true] at hdue
      exact ⟨(hi.reads _ h.mem_frame).1.trans (executions_mono h _), .inr (.inr (by omega))⟩

theorem bottom_step (h : Step (code body) c f x c') (hi : c.Bottom (· = .worker)) : c'.Bottom (· = .worker) := by
  refine h.bottom hi fun fs he => ?_
  have ha := acts_of_code he
  generalize c.mem = m, c'.mem = m' at ha
  clear he h hi
  cases ha with
  | dequeue id queue hq => exact .inr ⟨rfl, by simp⟩
  | invokeOther callback rest =>
    refine .inl fun g hg => ?_
    rcases List.mem_append.mp hg with hg | hg
    · obtain ⟨call, _, rfl⟩ := List.mem_map.mp hg
      nofun
    · rw [List.mem_singleton.mp hg]
      nofun
  | complete event status m' fs ht | markFailed id m' fs ht | markCancelled id m' fs ht
  | cancel id m' fs ht | markRunning id m' fs ht | finalize id poll m' fs ht => cases ht <;> exact .inl (by simp)
  | onComplete event callback m' fs hr | register id event rest m' fs hr => cases hr <;> exact .inl (by simp)
  | _ => exact .inl (by simp)

theorem resumes_start : Resumes (start workerCount programs) := by
  refine ⟨fun _ _ => rfl, fun _ => holder_start, fun id hpos => ?_, fun f hf => ?_, nofun, fun k hk f hf => ?_⟩
  · rw [total_start rfl fun _ => rfl] at hpos
    exact absurd hpos (lt_irrefl 0)
  · rcases frame_start hf with rfl | ⟨call, rfl⟩ <;> trivial
  · rcases List.mem_append.mp hk with hk | hk
    · obtain rfl := List.eq_of_mem_replicate hk
      simp at hf
    · obtain ⟨p, _, rfl⟩ := List.mem_map.mp hk
      obtain ⟨call, _, rfl⟩ := List.mem_map.mp (List.dropLast_subset _ hf)
      nofun

theorem resumes_step (h : Step (code body) c f x c') (hg : clearsFirst c f) (hi : Resumes c) : Resumes c' :=
  ⟨fresh_step h hi.fresh, fun id => holder_step h (hi.holder id), fun id => runs_step h (hi.holder id) (hi.runs id),
    reads_step h hi, answered_step h hg hi, bottom_step h hi.bottom⟩

theorem resumes_reaches (h : Reaches (code body) clearsFirst (start workerCount programs) c) : Resumes c := by
  induction h with
  | refl => exact resumes_start
  | step _ hg hs ih => exact resumes_step hs hg ih

def isWorker : Frame → ℕ
  | .worker => 1
  | _ => 0

theorem workers_step (h : Step (code body) c f x c') : c'.total isWorker = c.total isWorker := by
  obtain ⟨fs, r, ha, hr, hr'⟩ := h.measure acts_of_code isWorker
  rw [hr, hr']
  generalize c.mem = m, c'.mem = m' at ha
  clear h hr hr'
  cases ha with
  | invokeOther callback rest =>
    rw [List.map_append, List.map_map, List.sum_append, sum_calls (g := isWorker) Frame.call fun _ => rfl]
    rfl
  | complete event status m' fs ht | markFailed id m' fs ht | markCancelled id m' fs ht
  | cancel id m' fs ht | markRunning id m' fs ht | finalize id poll m' fs ht =>
    rw [ht.sum fun _ => rfl]
    rfl
  | onComplete event callback m' fs hr | register id event rest m' fs hr =>
    rw [hr.sum fun _ => rfl]
    rfl
  | _ => rfl

theorem workers_reaches {guard : Guard Runtime Frame} (h : Reaches (code body) guard (start workerCount programs) c) :
    0 < c.total isWorker := by
  induction h with
  | refl =>
    refine total_pos.mpr ⟨.worker, List.mem_flatten.mpr ⟨[.worker], List.mem_append_left _ ?_, by simp⟩, Nat.one_pos⟩
    exact List.mem_replicate.mpr ⟨(poolSize_pos workerCount).ne', rfl⟩
  | step _ _ hs ih => exact (workers_step hs).symm ▸ ih

/-- Only a worker that finds the queue empty is blocked. -/
theorem worker_of_blocked (h : ∀ x, code body m f x = none) : f = .worker ∧ m.queue = [] := by
  have hfull := h .full
  have hpick := h (.pick 0)
  have hfinish := h (.finish .suspend)
  cases f with
  | worker =>
    refine ⟨rfl, ?_⟩
    cases hq : m.queue with
    | nil => rfl
    | cons id queue => simp [code, hq] at hpick
  | register id events => cases events <;> cases hfull
  | invoke callbacks =>
    cases callbacks with
    | nil => cases hfull
    | cons callback rest => cases callback <;> cases hfull
  | push id => cases hfull
  | step id => cases hfinish
  | loadStatus id | dispatch id resume | execute id | take id =>
    simp only [code] at hfull
    split_ifs at hfull
  | _ => cases hfull

/-- In every run whose resumes find `inFlight` cleared, a resume that returned `true` is answered: the
step has been executed again, or is on its way to be, unless the submission was stopped; and it has been
once no thread can act. -/
theorem no_lost_resume (h : Reaches (code body) clearsFirst (start workerCount programs) c) :
    ∀ resume ∈ c.mem.resumed, c.mem.stopRequested resume.1 = false →
      (resume.2 < c.mem.executions resume.1 ∨ 0 < c.total (due resume.1) + c.mem.queue.count resume.1) ∧
      (Quiescent (code body) c → resume.2 < c.mem.executions resume.1) := by
  intro resume hm hs
  have hi := resumes_reaches h
  have ha : resume.2 < c.mem.executions resume.1 ∨ 0 < c.total (due resume.1) + c.mem.queue.count resume.1 := by
    simpa [hs] using (hi.answered resume hm).2
  refine ⟨ha, fun hq => ha.resolve_right ?_⟩
  obtain ⟨f, hf, _⟩ := total_pos.mp (workers_reaches h)
  obtain ⟨hqueue, hidle⟩ := hq.idle hi.bottom (fun f h => worker_of_blocked h) hf
  have hz : c.total (due resume.1) = 0 := List.sum_eq_zero fun n hn => by
    obtain ⟨f, hf, rfl⟩ := List.mem_map.mp hn
    rw [hidle f hf]
    rfl
  simp [hz, hqueue]

/-- A submission to the pool that is resumed once its handle is there. -/
def submitThenResume : List (List Call) := [[.submit {executor := .threadPool}, .resume 1]]

/-- The resume reads the suspended status before the worker clears `inFlight`: it returns `true`
and nothing follows. -/
theorem resume_lost : ¬ ∀ c, Reaches (code fun _ => []) free (start 1 submitThenResume) c →
    Quiescent (code fun _ => []) c →
    ∀ resume ∈ c.mem.resumed, c.mem.stopRequested resume.1 = false → resume.2 < c.mem.executions resume.1 := by
  intro h
  have he : (runs (code fun _ => []) free (start 1 submitThenResume)
      (.flatten [.replicate 5 (1, .pick 0), .replicate 4 (0, .pick 0), .replicate 2 (0, .finish .suspend),
        .replicate 3 (1, .full), [(0, .full)]])).map
        (fun c => (c.threads, c.mem.queue, c.mem.resumed, c.mem.stopRequested 1, c.mem.executions 1)) =
      some ([[.worker], []], [], [(1, 1)], false, 1) := rfl
  obtain ⟨c, hc, he⟩ := Option.map_eq_some_iff.mp he
  simp only [Prod.mk.injEq] at he
  obtain ⟨ht, hqueue, hres, hstop, hex⟩ := he
  have hq : Quiescent (code fun _ => []) c := by
    refine quiescent_of_blocked fun f k hk x => ?_
    rw [ht] at hk
    obtain ⟨rfl, _⟩ : f = .worker ∧ k = [] := by simpa using hk
    cases x <;> simp [code, hqueue]
  have hlt := h c (reaches_of_runs hc) hq (1, 1) (by simp [hres]) hstop
  simp [hex] at hlt

/-- When the worker clears `inFlight` first, the step is executed once more. -/
theorem no_lost_resume_inOrder : ∃ c, Reaches (code fun _ => []) clearsFirst (start 1 submitThenResume) c ∧
    (1, 1) ∈ c.mem.resumed ∧ 1 < c.mem.executions 1 := by
  have he : (runs (code fun _ => []) clearsFirst (start 1 submitThenResume)
      (.flatten [.replicate 5 (1, .pick 0), .replicate 4 (0, .pick 0), .replicate 3 (0, .finish .suspend),
        .replicate 5 (1, .pick 0), .replicate 4 (0, .pick 0), .replicate 4 (0, .finish .completed)])).map
        (fun c => (c.threads, c.mem.queue, c.mem.resumed, c.mem.stopRequested 1)) =
      some ([[.worker], []], [], [(1, 1)], false) := rfl
  obtain ⟨c, hc, he⟩ := Option.map_eq_some_iff.mp he
  simp only [Prod.mk.injEq] at he
  obtain ⟨ht, hqueue, hres, hstop⟩ := he
  have hq : Quiescent (code fun _ => []) c := by
    refine quiescent_of_blocked fun f k hk x => ?_
    rw [ht] at hk
    obtain ⟨rfl, _⟩ : f = .worker ∧ k = [] := by simpa using hk
    cases x <;> simp [code, hqueue]
  have hm : (1, 1) ∈ c.mem.resumed := by simp [hres]
  exact ⟨c, reaches_of_runs hc, hm, (no_lost_resume (reaches_of_runs hc) (1, 1) hm hstop).2 hq⟩

end Zpc.AsyncRuntime
