import Zpc.AsyncRuntime
import Mathlib.Tactic.Linarith

/-!
# When a submission's step is executed

A submission is first dispatched by `submit` itself or by the callback that counts its last
prerequisite, and after that by resumes. As long as a resume dispatches only what is
suspended, the step is executed after all prerequisites are terminal and before the
submission's own event is.
-/
namespace Zpc.AsyncRuntime
open Interleaving

/-- A resume that wins `inFlight` finds the submission still suspended. -/
def resumesSuspended : Guard Runtime Frame
  | c, .dispatch id (some _) => c.mem.inFlight id = false → c.mem.status (.submission id) = .suspended
  | _, _ => True

instance (c : Config Runtime Frame) (f : Frame) : Decidable (resumesSuspended c f) :=
  decidable_of_bool (match f with
    | .dispatch id (some _) => c.mem.inFlight id = false → c.mem.status (.submission id) = .suspended
    | _ => true) (by unfold resumesSuspended; split <;> simp only [decide_eq_true_iff])

/-- The prerequisites of a submission that a frame has still to register or to count. -/
def outstanding (id : ℕ) : Frame → ℕ
  | .register id' events => if id' = id then events.length else 0
  | .invoke callbacks => callbacks.countP (·.counts id)
  | .loadPrerequisite _ id' | .countDown id' => if id' = id then 1 else 0
  | _ => 0

def registering (id : ℕ) (event : Event) : Frame → ℕ
  | .register id' events => if id' = id then events.count event else 0
  | _ => 0

def releasing (id : ℕ) : Frame → ℕ
  | .loadFailed id' | .loadCancelled id' | .markFailed id' | .markCancelled id' | .dispatch id' none =>
    if id' = id then 1 else 0
  | _ => 0

def ending (id : ℕ) : Frame → Bool
  | .markFailed id' | .markCancelled id' | .dispatch id' none => id' = id
  | _ => false

def alive (id : ℕ) (f : Frame) : ℕ := due id f + inside id f

/-- The submission has not been dispatched or marked: it is not there yet, waits for prerequisites,
or is about to be. -/
def Unreleased (c : Config Runtime Frame) (id : ℕ) : Prop :=
  c.mem.nextSubmissionId < id ∨ c.mem.remaining id ≠ 0 ∨ 0 < c.total (releasing id)

structure Dispatches (c : Config Runtime Frame) : Prop where
  fresh : ∀ id, c.mem.nextSubmissionId < id → c.mem.submissions id = {}
  holder : ∀ id, c.total (holding id) + c.mem.queue.count id = (c.mem.inFlight id).toNat
  counted : ∀ id, c.mem.remaining id = c.total (outstanding id) + c.mem.callbacks.countP (·.2.counts id)
  waiting : ∀ id, ∀ event ∈ (c.mem.submissions id).prerequisites, (c.mem.status event).isTerminal = true ∨
    0 < c.total (registering id event) + c.mem.callbacks.count (event, .prerequisite event id)
  once : ∀ id, c.total (releasing id) ≤ 1 ∧ (c.mem.remaining id ≠ 0 → c.total (releasing id) = 0)
  notYet : ∀ id, c.mem.nextSubmissionId < id → c.mem.remaining id = 0 ∧ c.total (releasing id) = 0
  untouched : ∀ id, Unreleased c id → c.mem.status (.submission id) = .pending ∧ c.mem.inFlight id = false
  unfinished : ∀ id, 0 < c.total (alive id) + c.mem.queue.count id → (c.mem.status (.submission id)).isTerminal = false

variable {body : ℕ → List Call} {workerCount : ℕ} {programs : List (List Call)} {c c' : Config Runtime Frame}
  {m m' : Runtime} {f : Frame} {x : Choice} {fs next : List Frame} {id : ℕ} {event : Event}

/-- A transition hands the callbacks that it takes out to a frame. -/
theorem Transitions.counted {status : AsyncTaskStatus} (h : Transitions m event status next m' fs) (id : ℕ) :
    (fs.map (outstanding id)).sum + m'.callbacks.countP (·.2.counts id) =
      (next.map (outstanding id)).sum + m.callbacks.countP (·.2.counts id) := by
  cases h with
  | already ht | keep ht hs => rfl
  | drain ht hs =>
    have hc := countP_filter_event m.callbacks id event
    simp only [List.map_cons, List.sum_cons, outstanding]
    omega

/-- The callbacks of an event that does not become terminal stay stored. -/
theorem Transitions.stored {status : AsyncTaskStatus} (h : Transitions m event status next m' fs) {e : Event}
    (he : (m'.status e).isTerminal = false) (callback : Callback) :
    m'.callbacks.count (e, callback) = m.callbacks.count (e, callback) := by
  cases h with
  | already ht | keep ht hs => rfl
  | drain ht hs =>
    refine List.count_filter ?_
    have hne : e ≠ event := fun hn => by simp [hn, hs] at he
    simpa using hne

/-- Every prerequisite not counted is registered, or to be registered, or its callback is under way. -/
theorem counted_step (h : Step (code body) c f x c')
    (hn : c.mem.nextSubmissionId < id → c.mem.remaining id = 0)
    (hi : c.mem.remaining id = c.total (outstanding id) + c.mem.callbacks.countP (·.2.counts id)) :
    c'.mem.remaining id = c'.total (outstanding id) + c'.mem.callbacks.countP (·.2.counts id) := by
  obtain ⟨fs, r, ha, hr, hr'⟩ := h.measure acts_of_code (outstanding id)
  rw [hr] at hi
  rw [hr']
  generalize c.mem = m, c'.mem = m' at ha hi hn ⊢
  clear h hr hr'
  cases ha with
  | submit submission hp | submitWaiting submission hp =>
    by_cases hid : id = m.nextSubmissionId + 1
    · subst hid
      rw [hn (by omega)] at hi
      simp [outstanding, Runtime.allocate, hp] at hi ⊢
      omega
    · simpa [outstanding, Runtime.allocate, hid, Ne.symm hid] using hi
  | invokeOther callback rest =>
    rw [List.map_append, List.map_map, List.sum_append, sum_calls (g := outstanding id) Frame.call fun _ => rfl]
    simpa [outstanding, Callback.counts] using hi
  | invokePrerequisite event id' rest =>
    simp [outstanding, Callback.counts, List.countP_cons] at hi ⊢
    omega
  | countLast id' hl | countDown id' hl =>
    by_cases hid : id = id'
    · subst hid
      simp [outstanding] at hi ⊢
      omega
    · simpa [outstanding, hid, Ne.symm hid] using hi
  | complete event status m' fs ht | markFailed id' m' fs ht | markCancelled id' m' fs ht
  | cancel id' m' fs ht | markRunning id' m' fs ht | finalize id' poll m' fs ht =>
    have hsum := ht.counted id
    simp [outstanding] at hi hsum
    rw [ht.submission_eq.2.2.2.1]
    omega
  | onComplete event callback m' fs hr | register id' event rest m' fs hr =>
    cases hr <;> simp [outstanding, Callback.counts, List.countP_cons] at hi ⊢ <;> omega
  | _ => first | exact hi | simpa [outstanding, Runtime.recordResume] using hi

/-- A prerequisite that is not terminal has a callback stored or about to be. -/
theorem waiting_step (h : Step (code body) c f x c')
    (hi : event ∈ (c.mem.submissions id).prerequisites → (c.mem.status event).isTerminal = true ∨
      0 < c.total (registering id event) + c.mem.callbacks.count (event, .prerequisite event id)) :
    event ∈ (c'.mem.submissions id).prerequisites → (c'.mem.status event).isTerminal = true ∨
      0 < c'.total (registering id event) + c'.mem.callbacks.count (event, .prerequisite event id) := by
  obtain ⟨fs, r, ha, hr, hr'⟩ := h.measure acts_of_code (registering id event)
  rw [hr] at hi
  rw [hr']
  generalize c.mem = m, c'.mem = m' at ha hi ⊢
  clear h hr hr'
  cases ha with
  | submit submission hp | submitWaiting submission hp =>
    by_cases hid : id = m.nextSubmissionId + 1
    · subst hid
      intro hm
      have hpos : 0 < submission.prerequisites.count event :=
        List.count_pos_iff.mpr (by simpa [Runtime.allocate] using hm)
      refine .inr ?_
      simp_all [registering]
    · simpa [registering, Runtime.allocate, hid, Ne.symm hid] using hi
  | invokeOther callback rest =>
    rw [List.map_append, List.map_map, List.sum_append, sum_calls (g := registering id event) Frame.call fun _ => rfl]
    exact hi
  | complete event' status m' fs ht | markFailed id' m' fs ht | markCancelled id' m' fs ht
  | cancel id' m' fs ht | markRunning id' m' fs ht | finalize id' poll m' fs ht =>
    obtain ⟨_, hsub, _⟩ := ht.submission_eq
    rw [hsub, ht.sum fun _ => rfl]
    intro hm
    cases hterm : (m'.status event).isTerminal with
    | true => exact .inl rfl
    | false =>
      rw [ht.stored hterm]
      refine .inr ((hi hm).resolve_left fun hn => ?_)
      rw [ht.terminal hn] at hterm
      cases hterm
  | onComplete event' callback m' fs hr =>
    cases hr with
    | invokeNow ht => exact hi
    | store ht => simpa [registering] using hi
  | register id' event' rest m' fs hr =>
    cases hr with
    | invokeNow ht =>
      by_cases hev : event' = event
      · exact fun _ => .inl (hev ▸ ht)
      · simpa [registering, List.count_cons, hev] using hi
    | store ht =>
      intro hm
      refine (hi hm).imp_right fun hpos => ?_
      by_cases hev : event' = event <;> by_cases hid : id' = id <;>
        simp_all [registering]
  | _ => first | exact hi | simpa [registering, Runtime.recordResume] using hi

theorem remaining_pos (hi : c.mem.remaining id = c.total (outstanding id) + c.mem.callbacks.countP (·.2.counts id))
    (hf : .countDown id ∈ c.frames) : 0 < c.mem.remaining id := by
  have hle := le_total (outstanding id) hf
  simp only [outstanding, if_true] at hle
  omega

/-- What an action does for the release of a submission: the submission appears, or a prerequisite of it is counted,
or the release ends. -/
theorem releasing_step (h : Step (code body) c f x c') (id : ℕ) :
    (id = c.mem.nextSubmissionId + 1 ∧ c'.mem.nextSubmissionId = id ∧ ending id f = false ∧
      (c'.mem.remaining id = 0 ∧ c'.total (releasing id) = c.total (releasing id) + 1 ∨
        c'.mem.remaining id ≠ 0 ∧ c'.total (releasing id) = c.total (releasing id))) ∨
    (f = .countDown id ∧ c'.mem.nextSubmissionId = c.mem.nextSubmissionId ∧ ending id f = false ∧
      c'.mem.remaining id = c.mem.remaining id - 1 ∧
      c'.total (releasing id) = c.total (releasing id) + if c.mem.remaining id = 1 then 1 else 0) ∨
    (c'.mem.remaining id = c.mem.remaining id ∧ c.total (releasing id) = c'.total (releasing id) + (ending id f).toNat ∧
      (c'.mem.nextSubmissionId = c.mem.nextSubmissionId ∨
        id ≠ c.mem.nextSubmissionId + 1 ∧ c'.mem.nextSubmissionId = c.mem.nextSubmissionId + 1)) := by
  obtain ⟨fs, r, ha, hr, hr'⟩ := h.measure acts_of_code (releasing id)
  rw [hr, hr']
  generalize c.mem = m, c'.mem = m' at ha ⊢
  clear h hr hr'
  cases ha with
  | submit submission hp | submitWaiting submission hp =>
    by_cases hid : id = m.nextSubmissionId + 1
    · subst hid
      refine .inl ⟨rfl, rfl, rfl, ?_⟩
      simp [releasing, Runtime.allocate, hp, Nat.add_comm]
    · refine .inr (.inr ⟨?_, ?_, .inr ⟨hid, rfl⟩⟩)
      · simp [Runtime.allocate, hid]
      · simp [releasing, ending, Ne.symm hid]
  | invokeOther callback rest =>
    rw [List.map_append, List.map_map, List.sum_append, sum_calls (g := releasing id) Frame.call fun _ => rfl]
    exact .inr (.inr ⟨rfl, rfl, .inl rfl⟩)
  | countLast id' hl | countDown id' hl =>
    by_cases hid : id' = id
    · subst hid
      refine .inr (.inl ⟨rfl, rfl, rfl, ?_⟩)
      simp [releasing, hl, Nat.add_comm]
    · refine .inr (.inr ⟨?_, ?_, .inl rfl⟩)
      · simp [Ne.symm hid]
      · simp [releasing, ending, hid]
  | markFailed id' m' fs ht | markCancelled id' m' fs ht =>
    obtain ⟨hnext, _, _, hrem, _⟩ := ht.submission_eq
    rw [ht.sum fun _ => rfl, hnext, hrem]
    refine .inr (.inr ⟨rfl, ?_, .inl rfl⟩)
    by_cases hid : id' = id <;> simp [releasing, ending, hid, Nat.add_comm]
  | complete event status m' fs ht | cancel id' m' fs ht | markRunning id' m' fs ht | finalize id' poll m' fs ht =>
    obtain ⟨hnext, _, _, hrem, _⟩ := ht.submission_eq
    rw [ht.sum fun _ => rfl, hnext, hrem]
    exact .inr (.inr ⟨rfl, rfl, .inl rfl⟩)
  | onComplete event callback m' fs hr | register id' event rest m' fs hr =>
    rw [hr.sum fun _ => rfl]
    cases hr <;> exact .inr (.inr ⟨rfl, rfl, .inl rfl⟩)
  | dispatch id' resume hf | busy id' resume hf =>
    cases resume with
    | some executions => exact .inr (.inr ⟨rfl, rfl, .inl rfl⟩)
    | none =>
      refine .inr (.inr ⟨rfl, ?_, .inl rfl⟩)
      by_cases hid : id' = id <;> simp [releasing, ending, hid, Nat.add_comm]
  | _ => exact .inr (.inr ⟨rfl, rfl, .inl rfl⟩)

/-- A submission is released once, after its last prerequisite has been counted. -/
theorem once_step (h : Step (code body) c f x c') (hpos : f = .countDown id → 0 < c.mem.remaining id)
    (hn : c.mem.nextSubmissionId < id → c.mem.remaining id = 0 ∧ c.total (releasing id) = 0)
    (hi : c.total (releasing id) ≤ 1 ∧ (c.mem.remaining id ≠ 0 → c.total (releasing id) = 0)) :
    c'.total (releasing id) ≤ 1 ∧ (c'.mem.remaining id ≠ 0 → c'.total (releasing id) = 0) := by
  rcases releasing_step h id with ⟨hid, -, -, hnew⟩ | ⟨hf, -, -, hrem, hrel⟩ | ⟨hrem, hrel, -⟩
  · have hz := hn (by omega)
    omega
  · have hp := hpos hf
    split_ifs at hrel <;> omega
  · omega

theorem notYet_step (h : Step (code body) c f x c') (hpos : f = .countDown id → 0 < c.mem.remaining id)
    (hi : c.mem.nextSubmissionId < id → c.mem.remaining id = 0 ∧ c.total (releasing id) = 0) :
    c'.mem.nextSubmissionId < id → c'.mem.remaining id = 0 ∧ c'.total (releasing id) = 0 := by
  intro hlt
  rcases releasing_step h id with ⟨-, hid, -⟩ | ⟨hf, hnext, -⟩ | ⟨hrem, hrel, hnext⟩
  · omega
  · have hp := hpos hf
    omega
  · omega

/-- A submission once released stays released, and the end of a release releases it. -/
theorem unreleased_step (h : Step (code body) c f x c') (hpos : f = .countDown id → 0 < c.mem.remaining id)
    (hn : c.mem.nextSubmissionId < id → c.mem.remaining id = 0 ∧ c.total (releasing id) = 0)
    (hi : c.total (releasing id) ≤ 1 ∧ (c.mem.remaining id ≠ 0 → c.total (releasing id) = 0)) (hu : Unreleased c' id) :
    Unreleased c id ∧ ending id f = false := by
  unfold Unreleased at hu ⊢
  rcases releasing_step h id with ⟨hid, -, hend, -⟩ | ⟨hf, -, hend, -⟩ | ⟨hrem, hrel, hnext⟩
  · exact ⟨.inl (by omega), hend⟩
  · exact ⟨.inr (.inl (hpos hf).ne'), hend⟩
  · cases hend : ending id f with
    | false =>
      rw [hend, Bool.toNat_false] at hrel
      exact ⟨by omega, rfl⟩
    | true =>
      rw [hend, Bool.toNat_true] at hrel
      omega

theorem Dispatches.held (hi : Dispatches c) (hf : f ∈ c.frames) (hp : 0 < holding id f) : c.mem.inFlight id = true := by
  have hle := le_total (holding id) hf
  have hh := hi.holder id
  cases hb : c.mem.inFlight id with
  | true => rfl
  | false =>
    rw [hb, Bool.toNat_false] at hh
    omega

/-- A dispatch that wins finds the submission's event not terminal. -/
theorem Dispatches.status_of_dispatch (hi : Dispatches c) {resume : Option ℕ} (hf : .dispatch id resume ∈ c.frames)
    (hg : resumesSuspended c (.dispatch id resume)) (hb : c.mem.inFlight id = false) :
    (c.mem.status (.submission id)).isTerminal = false := by
  cases resume with
  | none =>
    have hle := le_total (releasing id) hf
    simp only [releasing, if_true] at hle
    rw [(hi.untouched id (.inr (.inr hle))).1]
    rfl
  | some executions =>
    rw [hg hb]
    rfl

theorem untouched_step (h : Step (code body) c f x c') (hg : resumesSuspended c f) (hi : Dispatches c)
    (hu : Unreleased c' id) : c'.mem.status (.submission id) = .pending ∧ c'.mem.inFlight id = false := by
  have hpos : f = .countDown id → 0 < c.mem.remaining id := fun hf => remaining_pos (hi.counted id) (hf ▸ h.mem_frame)
  obtain ⟨hu, hend⟩ := unreleased_step h hpos (hi.notYet id) (hi.once id) hu
  obtain ⟨hs, hb⟩ := hi.untouched id hu
  have hfree : holding id f = 0 := by
    rcases Nat.eq_zero_or_pos (holding id f) with h0 | hp
    · exact h0
    · rw [hi.held h.mem_frame hp] at hb
      cases hb
  obtain ⟨fs, he⟩ := h.runs_code
  have ha := acts_of_code he
  obtain ⟨m, threads⟩ := c
  generalize c'.mem = m' at ha ⊢
  clear h he hi hpos hu
  dsimp only at ha hs hb ⊢
  cases ha with
  | dispatch id' resume hf =>
    have hid : id ≠ id' := by
      rintro rfl
      cases resume with
      | none => simp [ending] at hend
      | some executions =>
        have hsus := hg hf
        dsimp only at hsus
        rw [hs] at hsus
        cases hsus
    exact ⟨hs, by simpa [Runtime.recordResume, hid] using hb⟩
  | clear id' =>
    refine ⟨hs, ?_⟩
    by_cases hid : id = id'
    · simp [hid]
    · simpa [hid] using hb
  | markFailed id' m' fs ht | markCancelled id' m' fs ht =>
    obtain ⟨_, _, hfl, _⟩ := ht.submission_eq
    rcases ht.status_eq (.submission id) with he | ⟨he, _⟩
    · exact ⟨he.trans hs, hfl ▸ hb⟩
    · simp [ending, Event.submission.inj he] at hend
  | cancel id' m' fs ht | markRunning id' m' fs ht | finalize id' poll m' fs ht =>
    obtain ⟨_, _, hfl, _⟩ := ht.submission_eq
    rcases ht.status_eq (.submission id) with he | ⟨he, _⟩
    · exact ⟨he.trans hs, hfl ▸ hb⟩
    · simp [holding, due, inside, clearing, Event.submission.inj he] at hfree
  | complete event status m' fs ht =>
    obtain ⟨_, _, hfl, _⟩ := ht.submission_eq
    rcases ht.status_eq (.submission id) with he | ⟨he, _⟩
    · exact ⟨he.trans hs, hfl ▸ hb⟩
    · cases he
  | onComplete event callback m' fs hr | register id' event rest m' fs hr => cases hr <;> exact ⟨hs, hb⟩
  | _ => exact ⟨hs, hb⟩

theorem unfinished_step (h : Step (code body) c f x c') (hg : resumesSuspended c f) (hi : Dispatches c) :
    0 < c'.total (alive id) + c'.mem.queue.count id → (c'.mem.status (.submission id)).isTerminal = false := by
  have hdispatch : ∀ resume, f = .dispatch id resume → c.mem.inFlight id = false →
      (c.mem.status (.submission id)).isTerminal = false := by
    rintro resume rfl hb
    exact hi.status_of_dispatch h.mem_frame hg hb
  have hmark : 0 < releasing id f → c.mem.inFlight id = false := fun hp =>
    (hi.untouched id (.inr (.inr (hp.trans_le (le_total (releasing id) h.mem_frame))))).2
  have hclear := le_total (clearing id) h.mem_frame
  have hh := hi.holder id
  have hn := Bool.toNat_le (c.mem.inFlight id)
  have ho := hi.unfinished id
  have hsum : c.total (holding id) = c.total (alive id) + c.total (clearing id) := by
    rw [total_holding, ← total_add]
    rfl
  rw [hsum] at hh
  obtain ⟨fs, r, ha, hr, hr'⟩ := h.measure acts_of_code (alive id)
  rw [hr] at hh ho
  rw [hr']
  generalize c.mem = m, c'.mem = m', c.total (clearing id) = k at ha hh hn ho hdispatch hmark hclear ⊢
  clear h hr hr' hi hg hsum
  cases ha with
  | invokeOther callback rest =>
    rw [List.map_append, List.map_map, List.sum_append, sum_calls (g := alive id) Frame.call fun _ => rfl]
    exact ho
  | dispatch id' resume hf =>
    by_cases hid : id' = id
    · subst hid
      exact fun _ => hdispatch resume rfl hf
    · simpa [alive, due, inside, Runtime.recordResume, hid] using ho
  | complete event status m' fs ht =>
    obtain ⟨_, _, _, _, hq⟩ := ht.submission_eq
    rw [ht.sum fun _ => rfl, hq]
    rcases ht.status_eq (.submission id) with he | ⟨he, _⟩
    · rwa [he]
    · cases he
  | markFailed id' m' fs ht | markCancelled id' m' fs ht =>
    obtain ⟨_, _, _, _, hq⟩ := ht.submission_eq
    rw [ht.sum fun _ => rfl, hq]
    rcases ht.status_eq (.submission id) with he | ⟨he, _⟩
    · rwa [he]
    · have hf := hmark (by simp [releasing, Event.submission.inj he])
      rw [hf, Bool.toNat_false] at hh
      intro hp
      simp only [List.map_nil, List.sum_nil] at hp
      omega
  | cancel id' m' fs ht =>
    obtain ⟨_, _, _, _, hq⟩ := ht.submission_eq
    rw [ht.sum fun _ => rfl, hq]
    rcases ht.status_eq (.submission id) with he | ⟨he, _⟩
    · rwa [he]
    · simp only [clearing, Event.submission.inj he, if_true] at hclear
      intro hp
      simp only [List.map_cons, List.map_nil, List.sum_cons, List.sum_nil, alive, due, inside] at hp
      omega
  | finalize id' poll m' fs ht =>
    obtain ⟨_, _, _, _, hq⟩ := ht.submission_eq
    rw [ht.sum fun _ => rfl, hq]
    intro hp
    simp only [List.map_cons, List.map_nil, List.sum_cons, List.sum_nil, alive, due, inside] at hp
    rcases ht.status_eq (.submission id) with he | ⟨he, _⟩
    · rw [he]
      exact ho (by omega)
    · obtain rfl := Event.submission.inj he
      simp only [alive, due, inside, if_true] at hh
      omega
  | markRunning id' m' fs ht =>
    obtain ⟨_, _, _, _, hq⟩ := ht.submission_eq
    rw [ht.sum fun _ => rfl, hq]
    rcases ht.status_eq (.submission id) with he | ⟨_, _, he⟩
    · rw [he]
      exact ho
    · intro _
      rw [he]
      rfl
  | push id' =>
    have hc : (m.queue ++ [id']).count id = m.queue.count id + alive id (.push id') := by
      simp [alive, due, inside, List.count_singleton]
    intro hp
    simp only [hc, List.map_nil, List.sum_nil] at hp
    exact ho (by omega)
  | dequeue id' queue hq =>
    have hc : m.queue.count id = alive id (.take id') + queue.count id := by
      simp [alive, due, inside, hq.count_eq, List.count_cons, Nat.add_comm]
    have hw : alive id .worker = 0 := rfl
    intro hp
    simp only [List.map_cons, List.map_nil, List.sum_cons, List.sum_nil] at hp
    exact ho (by omega)
  | executeStopped id' hs | takeStopped id' hs =>
    intro hp
    simp only [List.map_cons, List.map_nil, List.sum_cons, List.sum_nil, alive, due, inside] at hp
    exact ho (by omega)
  | onComplete event callback m' fs hr | register id' event rest m' fs hr =>
    rw [hr.sum fun _ => rfl]
    cases hr <;> exact ho
  | _ => first | exact ho | simpa [alive, due, inside] using ho

theorem dispatches_start : Dispatches (start workerCount programs) where
  fresh _ _ := rfl
  holder _ := holder_start
  counted id := by
    rw [total_start rfl fun _ => rfl]
    rfl
  waiting _ _ := nofun
  once id := by
    rw [total_start rfl fun _ => rfl]
    exact ⟨Nat.zero_le 1, fun _ => rfl⟩
  notYet id _ := ⟨rfl, total_start rfl fun _ => rfl⟩
  untouched _ _ := ⟨rfl, rfl⟩
  unfinished _ _ := rfl

theorem dispatches_step (h : Step (code body) c f x c') (hg : resumesSuspended c f) (hi : Dispatches c) :
    Dispatches c' := by
  have hpos : ∀ id, f = .countDown id → 0 < c.mem.remaining id := fun id hf =>
    remaining_pos (hi.counted id) (hf ▸ h.mem_frame)
  exact ⟨fresh_step h hi.fresh, fun id => holder_step h (hi.holder id),
    fun id => counted_step h (fun hlt => (hi.notYet id hlt).1) (hi.counted id),
    fun id event => waiting_step h (hi.waiting id event), fun id => once_step h (hpos id) (hi.notYet id) (hi.once id),
    fun id => notYet_step h (hpos id) (hi.notYet id), fun _ hu => untouched_step h hg hi hu,
    fun _ => unfinished_step h hg hi⟩

theorem dispatches_reaches (h : Reaches (code body) resumesSuspended (start workerCount programs) c) : Dispatches c := by
  induction h with
  | refl => exact dispatches_start
  | step _ hg hs ih => exact dispatches_step hs hg ih

/-- A submission in flight has been released, so that none of its prerequisites is outstanding. -/
theorem Dispatches.prerequisites_terminal (hi : Dispatches c) (hf : c.mem.inFlight id = true) :
    ∀ event ∈ (c.mem.submissions id).prerequisites, (c.mem.status event).isTerminal = true := by
  have hz : c.mem.remaining id = 0 := by
    by_contra hne
    rw [(hi.untouched id (.inr (.inl hne))).2] at hf
    cases hf
  have hc := hi.counted id
  intro event hm
  refine (hi.waiting id event hm).resolve_right fun hp => ?_
  have hreg : c.total (registering id event) ≤ c.total (outstanding id) := total_mono c fun f => by
    cases f <;> simp only [registering, outstanding, Nat.zero_le]
    split_ifs
    · exact List.count_le_length
    · exact le_refl _
  have hst : c.mem.callbacks.count (event, .prerequisite event id) ≤ c.mem.callbacks.countP (·.2.counts id) := by
    rw [List.count_eq_countP]
    exact List.countP_mono_left fun p _ hp => by
      obtain rfl := eq_of_beq hp
      simp [Callback.counts]
  omega

/-- A step is never executed twice at the same time; and in every run whose resumes dispatch only what is
suspended, while it is executed all prerequisites are terminal and the submission's own event is not. -/
theorem step_between_prerequisites_and_end
    (h : Reaches (code body) resumesSuspended (start workerCount programs) c) (id : ℕ) :
    c.total (inside id) ≤ 1 ∧ (.step id ∈ c.frames →
      (∀ event ∈ (c.mem.submissions id).prerequisites, (c.mem.status event).isTerminal = true) ∧
      (c.mem.status (.submission id)).isTerminal = false) := by
  have hi := dispatches_reaches h
  have hh := hi.holder id
  have hn := Bool.toNat_le (c.mem.inFlight id)
  rw [total_holding] at hh
  refine ⟨by omega, fun hm => ⟨hi.prerequisites_terminal (hi.held hm (by simp [holding, inside])), ?_⟩⟩
  refine hi.unfinished id ?_
  have hle := le_total (alive id) hm
  simp only [alive, due, inside, if_true] at hle
  omega

/-- A resume dispatches a submission whose prerequisite is still pending. -/
theorem step_before_prerequisite : ¬ ∀ c, Reaches (code fun _ => []) free
    (start 1 [[.submit {prerequisites := [.created 0]}, .resume 1]]) c → ∀ id,
    c.total (inside id) ≤ 1 ∧ (.step id ∈ c.frames →
      (∀ event ∈ (c.mem.submissions id).prerequisites, (c.mem.status event).isTerminal = true) ∧
      (c.mem.status (.submission id)).isTerminal = false) := by
  intro h
  have he : (runs (code fun _ => []) free (start 1 [[.submit {prerequisites := [.created 0]}, .resume 1]])
      (List.replicate 10 (1, .full))).map
        (fun c => (c.threads, (c.mem.submissions 1).prerequisites, c.mem.status (.created 0))) =
      some ([[.worker], [.step 1]], [.created 0], .pending) := rfl
  obtain ⟨c, hc, he⟩ := Option.map_eq_some_iff.mp he
  simp only [Prod.mk.injEq] at he
  obtain ⟨ht, hp, hs⟩ := he
  have hr := ((h c (reaches_of_runs hc) 1).2 (by simp [Config.frames, ht])).1 (.created 0) (by simp [hp])
  rw [hs] at hr
  cases hr

/-- The callback on the prerequisite dispatches the submission. -/
theorem step_after_prerequisite : ∃ c, Reaches (code fun _ => []) resumesSuspended
    (start 1 [[.submit {prerequisites := [.created 0]}, .complete 0 .completed]]) c ∧ .step 1 ∈ c.frames ∧
    (c.mem.status (.created 0)).isTerminal = true ∧ (c.mem.status (.submission 1)).isTerminal = false := by
  have he : (runs (code fun _ => []) resumesSuspended
      (start 1 [[.submit {prerequisites := [.created 0]}, .complete 0 .completed]]) (List.replicate 14 (1, .full))).map
        (fun c => (c.threads, (c.mem.submissions 1).prerequisites)) =
      some ([[.worker], [.step 1, .invoke []]], [.created 0]) := rfl
  obtain ⟨c, hc, he⟩ := Option.map_eq_some_iff.mp he
  simp only [Prod.mk.injEq] at he
  obtain ⟨ht, hp⟩ := he
  have hm : .step 1 ∈ c.frames := by simp [Config.frames, ht]
  obtain ⟨hpre, hown⟩ := (step_between_prerequisites_and_end (reaches_of_runs hc) 1).2 hm
  exact ⟨c, reaches_of_runs hc, hm, hpre _ (by simp [hp]), hown⟩

end Zpc.AsyncRuntime
