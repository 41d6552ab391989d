import Zpc.AsyncResourceLeases

/-!
# The flag of a maintenance

`maintenanceInFlight` of an entry is set when a maintenance is scheduled and cleared by its step. As long as every
maintenance comes to its end through that step, an entry whose flag is set has a maintenance that has not ended.
-/
namespace Zpc.AsyncResourceManager
open Interleaving
open AsyncRuntime (AsyncPollStatus)

variable {body : ℕ → List AsyncRuntime.Call} {workerCount : ℕ} {programs : List (List Call)}
  {c c' : Config Manager Frame} {m m' : Manager} {f : Frame} {x : Choice} {fs : List Frame} {r id : ℕ}

/-- The submission that an action may end without its step having cleared the flag: a prerequisite failed or was
cancelled, the submission was stopped before its step, the callback threw, or it suspended and was stopped. -/
def endsUncleared (m : Manager) : Frame → Option ℕ
  | .runtime (.markFailed id) | .runtime (.markCancelled id) | .runtime (.cancel id) | .thrown id _ => some id
  | .loadStop id _ .suspend => if m.runtime.stopRequested id then some id else none
  | _ => none

/-- No maintenance is ended in one of these ways. -/
def endsThroughStep : Guard Manager Frame := fun c f => ∀ id ∈ endsUncleared c.mem f,
  (c.mem.maintenance id).isSome → (c.mem.runtime.status (.submission id)).isTerminal = true

instance (c : Config Manager Frame) (f : Frame) : Decidable (endsThroughStep c f) := by
  unfold endsThroughStep
  infer_instance

/-- A maintenance call between setting the flag and the submission, or about to clear the flag again. -/
def scheduling (r : ℕ) : Frame → ℕ
  | .scheduleEpoch s | .submit s _ => if s.resource = r then 1 else 0
  | .abandon r' => if r' = r then 1 else 0
  | _ => 0

def mentions (id : ℕ) : Frame → ℕ
  | .runtime frame => AsyncRuntime.mentions id frame
  | .loadLeases id' _ _ | .maintain id' _ _ _ | .maintained id' _ _ | .clearDirty id' _ | .recordAccess id' _
  | .retire id' _ | .clearFlag id' _ _ | .loadIdle id' _ | .loadStop id' _ _ | .thrown id' _ => if id' = id then 1 else 0
  | _ => 0

/-- What holds of the step of a maintenance at each place, and of its result. -/
def Sound (m : Manager) : Frame → Prop
  | .loadLeases id work _ | .maintain id work _ _ | .maintained id work _ | .clearDirty id work | .recordAccess id work
  | .retire id work | .clearFlag id work _ | .thrown id work => m.maintenance id = some work
  | .loadIdle id work => m.maintenance id = some work ∧ m.cleared id = true
  | .loadStop id work result => m.maintenance id = some work ∧ (result ≠ .suspend → m.cleared id = true)
  | .runtime (.finalize id poll) => (m.maintenance id).isSome → poll ≠ .suspend → m.cleared id = true
  | _ => True

def Flagged (c : Config Manager Frame) (r : ℕ) : Prop :=
  0 < c.total (scheduling r) ∨ ∃ id work, c.mem.maintenance id = some work ∧ work.resource = r ∧ c.mem.cleared id = false

structure Maintains (c : Config Manager Frame) : Prop where
  submitted : ∀ id work, c.mem.maintenance id = some work → id ≤ c.mem.runtime.nextSubmissionId
  fresh : ∀ id, c.mem.runtime.nextSubmissionId < id → AsyncRuntime.Fresh c.mem.runtime id ∧ c.total (mentions id) = 0
  sound : ∀ f ∈ c.frames, Sound c.mem f
  ended : ∀ id work, c.mem.maintenance id = some work → (c.mem.runtime.status (.submission id)).isTerminal = true →
    c.mem.cleared id = true
  flagged : ∀ r, (c.mem.entry r).maintenanceInFlight = true → Flagged c r

theorem Acts.next_le (ha : Acts body m f m' fs) : m.runtime.nextSubmissionId ≤ m'.runtime.nextSubmissionId := by
  cases ha with
  | runtime frame runtime' fs ha hw => exact AsyncRuntime.Acts.next_le ha
  | submit s scheduledEpoch executor fs ha => exact Nat.le_succ _
  | _ => exact le_rfl

theorem mentions_step (h : Step (code body) c f x c') (hid : c'.mem.runtime.nextSubmissionId < id)
    (hi : AsyncRuntime.Fresh c.mem.runtime id ∧ c.total (mentions id) = 0) :
    AsyncRuntime.Fresh c'.mem.runtime id ∧ c'.total (mentions id) = 0 := by
  obtain ⟨fs, n, ha, hn, hn'⟩ := h.measure acts_of_code (mentions id)
  obtain ⟨hfresh, hf⟩ := hi
  rw [hn, Nat.add_eq_zero_iff] at hf
  obtain ⟨hf, rfl⟩ := hf
  rw [hn', Nat.add_zero]
  generalize c.mem = m, c'.mem = m' at ha hid hfresh ⊢
  clear h hn hn'
  cases ha with
  | runtime frame runtime' fs ha hw =>
    rw [List.map_map]
    exact ha.fresh hid hf hfresh
  | submit s scheduledEpoch executor fs ha =>
    rw [List.map_append, List.sum_append, List.map_map]
    exact ha.fresh hid rfl hfresh
  | _ => exact ⟨hfresh, by first | rfl | simpa [mentions, AsyncRuntime.mentions] using hf⟩

/-- The records of a submission already made stay, and a flag once cleared by its step counts as cleared. -/
theorem Acts.recorded (ha : Acts body m f m' fs) (hid : id ≤ m.runtime.nextSubmissionId) :
    m'.maintenance id = m.maintenance id ∧ (m.cleared id = true → m'.cleared id = true) := by
  cases ha with
  | submit s scheduledEpoch executor fs ha =>
    have hne : id ≠ m.runtime.nextSubmissionId + 1 := by omega
    exact ⟨by simp [hne], by simp [hne]⟩
  | clearRetired id' work hr | clearFlag id' work result =>
    refine ⟨rfl, fun hc => ?_⟩
    by_cases hid : id = id'
    · simp [hid]
    · simpa [hid] using hc
  | _ => exact ⟨rfl, fun hc => hc⟩

theorem Sound.mono {g : Frame} (h : Sound m g) (hm : ∀ id, 0 < mentions id g →
    m'.maintenance id = m.maintenance id ∧ (m.cleared id = true → m'.cleared id = true)) : Sound m' g := by
  cases g with
  | runtime frame =>
    cases frame with
    | finalize id poll =>
      obtain ⟨hmain, hclear⟩ := hm id (by simp [mentions, AsyncRuntime.mentions])
      exact fun hw hp => hclear (h (by rwa [← hmain]) hp)
    | _ => trivial
  | loadLeases id work payload | maintain id work payload leaseCount | maintained id work result | clearDirty id work
  | recordAccess id work | retire id work | clearFlag id work result | thrown id work =>
    exact (hm id (by simp [mentions])).1.trans h
  | loadIdle id work =>
    obtain ⟨hmain, hclear⟩ := hm id (by simp [mentions])
    exact ⟨hmain.trans h.1, hclear h.2⟩
  | loadStop id work result =>
    obtain ⟨hmain, hclear⟩ := hm id (by simp [mentions])
    exact ⟨hmain.trans h.1, fun hs => hclear (h.2 hs)⟩
  | _ => trivial

theorem Maintains.le_next (hi : Maintains c) (hf : f ∈ c.frames) (hm : 0 < mentions id f) :
    id ≤ c.mem.runtime.nextSubmissionId := by
  by_contra hlt
  have hle := le_total (mentions id) hf
  rw [(hi.fresh id (by omega)).2] at hle
  omega

theorem sound_runtime {frame : AsyncRuntime.Frame} (h : ∀ id poll, frame = .finalize id poll → m.maintenance id = none) :
    Sound m (.runtime frame) := by
  cases frame with
  | finalize id poll =>
    intro hw
    rw [h id poll rfl] at hw
    cases hw
  | _ => trivial

theorem sound_step (h : Step (code body) c f x c') (hg : endsThroughStep c f) (hi : Maintains c) :
    ∀ f ∈ c'.frames, Sound c'.mem f := by
  refine h.all hi.sound (fun fs he => ?_) fun g hb hs => ?_
  · have hsound := hi.sound f h.mem_frame
    have hended := hi.ended
    have ha := acts_of_code he
    unfold endsThroughStep at hg
    generalize c.mem = m, c'.mem = m' at ha hg hsound hended ⊢
    clear he
    cases ha with
    | runtime frame runtime' fs ha hw =>
      intro g hg
      obtain ⟨frame', hf, rfl⟩ := List.mem_map.mp hg
      refine sound_runtime fun id poll he => ?_
      obtain rfl := ha.step_of_finalize (he ▸ hf)
      exact Option.map_eq_none_iff.mp hw
    | submit s scheduledEpoch executor fs ha =>
      intro g hg
      rcases List.mem_append.mp hg with hg | hg
      · obtain ⟨frame', hf, rfl⟩ := List.mem_map.mp hg
        exact sound_runtime fun id poll he => nomatch ha.step_of_finalize (he ▸ hf)
      · obtain rfl := List.mem_singleton.mp hg
        trivial
    | step id work payload hw => exact List.forall_mem_singleton.mpr hw
    | clearRetired id work hr => exact List.forall_mem_singleton.mpr ⟨hsound, by simp⟩
    | clearFlag id work result => exact List.forall_mem_singleton.mpr ⟨hsound, fun _ => by simp⟩
    | idle id work hl => exact List.forall_mem_cons.mpr ⟨trivial, List.forall_mem_singleton.mpr ⟨hsound.1, fun _ => hsound.2⟩⟩
    | stillLeased id work => exact List.forall_mem_singleton.mpr ⟨hsound.1, fun _ => hsound.2⟩
    | stopped id work result hs =>
      refine List.forall_mem_singleton.mpr fun _ _ => ?_
      by_cases hr : result = .suspend
      · subst hr
        exact hended id work hsound.1 (hg id (by simp [endsUncleared, hs]) (by simp [hsound.1]))
      · exact hsound.2 hr
    | loadStop id work result hs => exact List.forall_mem_singleton.mpr fun _ hr => hsound.2 hr
    | thrown id work =>
      refine List.forall_mem_singleton.mpr fun _ _ => hended id work hsound ?_
      exact hg id (by simp [endsUncleared]) (by simp [show m.maintenance id = some work from hsound])
    | maintainCall id work payload leaseCount call =>
      exact List.forall_mem_cons.mpr ⟨trivial, List.forall_mem_singleton.mpr hsound⟩
    | suspended id work => exact List.forall_mem_singleton.mpr ⟨hsound, fun hn => absurd rfl hn⟩
    | _ => first | exact List.forall_mem_nil _ | exact List.forall_mem_singleton.mpr hsound | simp [Sound]
  · obtain ⟨fs, he⟩ := h.runs_code
    exact hs.mono fun id hid => (acts_of_code he).recorded (hi.le_next hb.mem hid)

/-- A maintenance comes to its end only after its step has cleared the flag. -/
theorem ended_step (h : Step (code body) c f x c') (hg : endsThroughStep c f) (hi : Maintains c) {work : Maintenance}
    (hw : c'.mem.maintenance id = some work) (ht : (c'.mem.runtime.status (.submission id)).isTerminal = true) :
    c'.mem.cleared id = true := by
  obtain ⟨fs, he⟩ := h.runs_code
  have ha := acts_of_code he
  have hsound := hi.sound f h.mem_frame
  have hold : c.mem.maintenance id = some work → (c.mem.runtime.status (.submission id)).isTerminal = true →
      c'.mem.cleared id = true := fun hm hs =>
    (ha.recorded (hi.submitted id work hm)).2 (hi.ended id work hm hs)
  have hnew := hi.fresh (c.mem.runtime.nextSubmissionId + 1) (Nat.lt_succ_self _)
  unfold endsThroughStep at hg
  generalize c.mem = m, c'.mem = m' at ha hg hsound hold hnew hw ht ⊢
  cases ha with
  | runtime frame runtime' fs ha hf =>
    by_cases hs : (m.runtime.status (.submission id)).isTerminal = true
    · exact hold hw hs
    have hend := ha.of_end (by simpa using hs) ht
    cases frame with
    | markFailed id' | markCancelled id' | cancel id' =>
      obtain rfl : id' = id := by simpa [AsyncRuntime.ends] using hend
      exact absurd (hg id' (by simp [endsUncleared]) (by simp [show m.maintenance id' = some work from hw])) hs
    | finalize id' poll =>
      obtain ⟨rfl, hp⟩ : id' = id ∧ poll ≠ .suspend := by simpa [AsyncRuntime.ends] using hend
      exact hsound (by simp [show m.maintenance id' = some work from hw]) hp
    | _ => cases hend
  | submit s scheduledEpoch executor fs ha =>
    by_cases hid : id = m.runtime.nextSubmissionId + 1
    · have hp : m.runtime.status (.submission id) = .pending := hid ▸ hnew.1.pending
      have ht : (m.runtime.status (.submission id)).isTerminal = true := ht
      rw [hp] at ht
      cases ht
    · exact hold (by simpa [hid] using hw) ht
  | _ => exact hold hw ht

/-- Only a maintenance call sets the flag of an entry. -/
theorem Acts.flag (ha : Acts body m f m' fs) (hf : ∀ s, f ≠ .scheduleExchange s)
    (ht : (m'.entry r).maintenanceInFlight = true) : (m.entry r).maintenanceInFlight = true := by
  rcases ha.entry_eq r with h | h
  · rwa [← h]
  · generalize m'.entry r = e at h ht
    cases h with
    | exchange s hs => exact absurd rfl (hf s)
    | destroy | collect resources removed => simpa using ht
    | acquire | release | access f epoch | dirty f dirty | retire id work hw => exact ht
    | register descriptor callbacks payload hr | abandon | clearFlag id work result hw => cases ht

theorem flagged_step (h : Step (code body) c f x c') (hi : Maintains c)
    (ht : (c'.mem.entry r).maintenanceInFlight = true) : Flagged c' r := by
  obtain ⟨fs, n, ha, hn, hn'⟩ := h.measure acts_of_code (scheduling r)
  have hsound := hi.sound f h.mem_frame
  have hold := hi.flagged r
  have hs := hi.submitted
  have hflag := ha.flag (r := r)
  rw [Flagged, hn] at hold
  rw [Flagged, hn']
  generalize c.mem = m, c'.mem = m' at ha hsound hold hs hflag ht ⊢
  clear h hn hn' hi
  cases ha with
  | runtime frame runtime' fs ha hw =>
    rw [List.map_map, sum_calls (g := scheduling r) Frame.runtime fun _ => rfl]
    exact hold ht
  | exchange s =>
    by_cases hr : s.resource = r
    · exact .inl (by simp [scheduling, hr])
    · have ht : (m.entry r).maintenanceInFlight = true := by simpa [Manager.update, Ne.symm hr] using ht
      exact (hold ht).imp_left fun hpos => by simpa [scheduling, hr] using hpos
  | submit s scheduledEpoch executor fs ha =>
    rw [List.map_append, List.sum_append, List.map_map, sum_calls (g := scheduling r) Frame.runtime fun _ => rfl]
    by_cases hr : s.resource = r
    · exact .inr ⟨m.runtime.nextSubmissionId + 1, ⟨s.resource, s.request, scheduledEpoch⟩, by simp, hr, by simp⟩
    · rcases hold ht with hpos | ⟨id, work, hw, hwr, hc⟩
      · exact .inl (by simpa [scheduling, hr] using hpos)
      · have hne : id ≠ m.runtime.nextSubmissionId + 1 := by
          have hle := hs id work hw
          omega
        exact .inr ⟨id, work, by simpa [hne] using hw, hwr, by simpa [hne] using hc⟩
  | abandon r' =>
    have hr : r' ≠ r := by
      rintro rfl
      simp [Manager.update] at ht
    exact (hold (hflag (by simp) ht)).imp_left fun hpos => by simpa [scheduling, hr] using hpos
  | clearRetired id' work hr' | clearFlag id' work result =>
    have hr : work.resource ≠ r := by
      rintro rfl
      simp [Manager.update] at ht
    rcases hold (hflag (by simp) ht) with hpos | ⟨id, work', hw, hwr, hc⟩
    · exact .inl hpos
    · have hne : id ≠ id' := by
        rintro rfl
        cases (hsound : m.maintenance id = some work).symm.trans hw
        exact hr hwr
      exact .inr ⟨id, work', hw, hwr, by simpa [hne] using hc⟩
  | busy s => exact hold ht
  | _ => exact hold (hflag (by simp) ht)

theorem maintains_start : Maintains (start workerCount programs) where
  submitted := nofun
  fresh id _ := ⟨⟨rfl, rfl, by simp [start], rfl⟩, total_start rfl fun _ => rfl⟩
  sound f hf := by
    rcases frame_start hf with rfl | ⟨call, rfl⟩ <;> trivial
  ended := nofun
  flagged := nofun

theorem maintains_step (h : Step (code body) c f x c') (hg : endsThroughStep c f) (hi : Maintains c) :
    Maintains c' := by
  obtain ⟨fs, he⟩ := h.runs_code
  have hle := (acts_of_code he).next_le
  exact ⟨submitted_step h hi.submitted, fun id hid => mentions_step h hid (hi.fresh id (by omega)),
    sound_step h hg hi, fun id work => ended_step h hg hi, fun r => flagged_step h hi⟩

theorem maintains_reaches (h : Reaches (code body) endsThroughStep (start workerCount programs) c) : Maintains c := by
  induction h with
  | refl => exact maintains_start
  | step _ hg hs ih => exact maintains_step hs hg ih

/-- In every run whose maintenances all end through their steps, once the event of a maintenance is terminal the flag
of its entry is cleared, unless another maintenance of the entry is being submitted or has not ended. -/
theorem flag_cleared_at_end (h : Reaches (code body) endsThroughStep (start workerCount programs) c) :
    ∀ id work, c.mem.maintenance id = some work → (c.mem.runtime.status (.submission id)).isTerminal = true →
    (c.mem.entry work.resource).maintenanceInFlight = false ∨ 0 < c.total (scheduling work.resource) ∨
      ∃ id' work', id' ≠ id ∧ c.mem.maintenance id' = some work' ∧ work'.resource = work.resource ∧
        (c.mem.runtime.status (.submission id')).isTerminal = false := by
  intro id work _ ht
  have hi := maintains_reaches h
  by_cases hf : (c.mem.entry work.resource).maintenanceInFlight = true
  · refine .inr ((hi.flagged _ hf).imp_right ?_)
    rintro ⟨id', work', hw', hr, hc⟩
    have hn : (c.mem.runtime.status (.submission id')).isTerminal = false := by
      by_contra hterm
      rw [hi.ended id' work' hw' (by simpa using hterm)] at hc
      cases hc
    refine ⟨id', work', ?_, hw', hr, hn⟩
    rintro rfl
    rw [ht] at hn
    cases hn
  · exact .inl (by simpa using hf)

/-- A maintenance whose prerequisite fails. -/
def maintenanceAfterFailure : List (List Call) :=
  [[.register {} {maintain := true} (some 7), .scheduleMaintenance {resource := 1, prerequisites := [.created 0]},
    .runtime (.complete 0 .failed)]]

/-- The submission fails with its prerequisite, and the flag of the entry stays set. -/
theorem flag_kept_after_failure : ¬ ∀ c, Reaches (code fun _ => []) free (start 1 maintenanceAfterFailure) c →
    ∀ id work, c.mem.maintenance id = some work → (c.mem.runtime.status (.submission id)).isTerminal = true →
    (c.mem.entry work.resource).maintenanceInFlight = false ∨ 0 < c.total (scheduling work.resource) ∨
      ∃ id' work', id' ≠ id ∧ c.mem.maintenance id' = some work' ∧ work'.resource = work.resource ∧
        (c.mem.runtime.status (.submission id')).isTerminal = false := by
  intro h
  have he : (runs (code fun _ => []) free (start 1 maintenanceAfterFailure)
      (List.replicate 23 (1, .runtime .full))).map
        (fun c => (c.threads, c.mem.maintenance, c.mem.runtime.status (.submission 1),
          (c.mem.entry 1).maintenanceInFlight)) =
      some ([[.runtime .worker], []], Function.update (fun _ => none) 1 (some ⟨1, {}, 0⟩), .failed, true) := rfl
  obtain ⟨c, hc, he⟩ := Option.map_eq_some_iff.mp he
  simp only [Prod.mk.injEq] at he
  obtain ⟨ht, hw, hs, hflag⟩ := he
  rcases h c (reaches_of_runs hc) 1 ⟨1, {}, 0⟩ (by simp [hw]) (by simp [hs]) with hf | hpos | ⟨id', work', hne, hw', _⟩
  · rw [hflag] at hf
    cases hf
  · simp [Config.total, Config.frames, ht, scheduling] at hpos
  · simp [hw, hne] at hw'

/-- A maintenance run to its end. -/
theorem flag_cleared_after_step : ∃ c, Reaches (code fun _ => []) endsThroughStep
    (start 1 [[.register {} {maintain := true} (some 7), .scheduleMaintenance {resource := 1}]]) c ∧
    (c.mem.runtime.status (.submission 1)).isTerminal = true ∧ (c.mem.entry 1).maintenanceInFlight = false := by
  have he : (runs (code fun _ => []) endsThroughStep
      (start 1 [[.register {} {maintain := true} (some 7), .scheduleMaintenance {resource := 1}]])
      (.flatten [.replicate 15 (1, .runtime .full), [(1, .finish .completed)], .replicate 10 (1, .runtime .full)])).map
        (fun c => (c.threads, c.mem.maintenance, c.mem.runtime.status (.submission 1))) =
      some ([[.runtime .worker], []], Function.update (fun _ => none) 1 (some ⟨1, {}, 0⟩), .completed) := rfl
  obtain ⟨c, hc, he⟩ := Option.map_eq_some_iff.mp he
  simp only [Prod.mk.injEq] at he
  obtain ⟨ht, hw, hs⟩ := he
  have hend : (c.mem.runtime.status (.submission 1)).isTerminal = true := by simp [hs]
  refine ⟨c, reaches_of_runs hc, hend, ?_⟩
  rcases flag_cleared_at_end (reaches_of_runs hc) 1 ⟨1, {}, 0⟩ (by simp [hw]) hend with hf | hpos | ⟨id', work', hne, hw', _⟩
  · exact hf
  · simp [Config.total, Config.frames, ht, scheduling] at hpos
  · simp [hw, hne] at hw'

end Zpc.AsyncResourceManager
