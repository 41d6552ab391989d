import Zpc.AsyncScheduler
import Mathlib.Tactic.Linarith

/-!
# Parking and waking workers

A queued task and a parked worker are reconciled by the status that the worker announces
before it parks and by the wake-ups that every enqueue ends with. No wake-up is lost in
runs where a worker announces itself only while the global queue is empty, and takes the
epoch it will sleep on only while its status is still the announced one.
-/
namespace Zpc.AsyncScheduler
open Interleaving

/-- A worker announces that it parks only while the global queue is empty, and nobody changes its
status between its last look at it and its look at the epoch. -/
def parksSafely : Guard Shared Frame
  | c, .announce worker => c.mem.status worker = 1 → c.mem.globalQueue = []
  | c, .snapshot worker => c.mem.status worker = 0
  | _, _ => True

instance (c : Config Shared Frame) (f : Frame) : Decidable (parksSafely c f) := by
  unfold parksSafely
  split <;> infer_instance

/-- The worker sleeps on the futex of its status. -/
def Parked (c : Config Shared Frame) (worker : ℕ) : Prop :=
  .asleep worker ∈ c.frames ∧ c.mem.asleep worker = true

/-- A worker between finding its own queue empty and looking at it again. -/
def past (worker : ℕ) : Frame → ℕ
  | .scanGlobal w | .steal w | .trySteal w _ | .announce w | .await w | .snapshot w | .futexWait w _ | .asleep w =>
    if w = worker then 1 else 0
  | _ => 0

/-- A worker that will look at its own queue next. -/
def active (worker : ℕ) : Frame → ℕ
  | .workerLoop w | .scanLocal w => if w = worker then 1 else 0
  | _ => 0

def sleeping (worker : ℕ) : Frame → ℕ
  | .asleep w => if w = worker then 1 else 0
  | _ => 0

def notifying (worker : ℕ) : Frame → ℕ
  | .notify w => if w = worker then 1 else 0
  | _ => 0

def waking (worker : ℕ) : Frame → ℕ
  | .notify w | .futexWake w => if w = worker then 1 else 0
  | _ => 0

/-- A task just put into the worker's queue whose enqueuer has still to set the status. -/
def delivering (worker : ℕ) : Frame → ℕ
  | .addLocal _ w | .storeStatus w => if w = worker then 1 else 0
  | _ => 0

/-- A task just put into the global queue whose enqueuer has still to look for a parked worker. -/
def publishing (numWorkers : ℕ) : Frame → ℕ
  | .addGlobal _ => 1
  | .wakeAny w => if w < numWorkers then 1 else 0
  | _ => 0

def InRange (numWorkers : ℕ) : Frame → Prop
  | .tryLocal _ worker | .displace _ worker | .pushDisplaced _ _ worker => worker < numWorkers
  | _ => True

structure Wakes (numWorkers : ℕ) (c : Config Shared Frame) : Prop where
  oneLoop : ∀ w, c.total (past w) + c.total (active w) = if w < numWorkers then 1 else 0
  inRange : ∀ f ∈ c.frames, InRange numWorkers f
  owners : ∀ e ∈ c.mem.localQueues, e.1 < numWorkers
  asleep : ∀ w, c.mem.asleep w = true → 0 < c.total (sleeping w)
  woken : ∀ w, c.mem.asleep w = true → c.mem.status w ≠ 0 → 0 < c.total (waking w)
  epoch : ∀ w e, .futexWait w e ∈ c.frames → e ≤ c.mem.seq w ∧
    (c.mem.status w ≠ 0 → e < c.mem.seq w ∨ 0 < c.total (notifying w))
  globalSeen : c.mem.globalQueue ≠ [] → (∃ w < numWorkers, c.mem.status w ≠ 0) ∨ 0 < c.total (publishing numWorkers)
  localSeen : ∀ e ∈ c.mem.localQueues, 0 < c.total (delivering e.1) ∨ c.mem.status e.1 = 2 ∨ c.total (past e.1) = 0

variable {S : Setting} {numDeps : ℕ → ℤ} {programs : List (List Call)} {c c' : Config Shared Frame} {f : Frame}
  {x : Choice}

theorem inRange_step (h : Step (code S) c f x c') (hi : ∀ g ∈ c.frames, InRange S.numWorkers g) :
    ∀ g ∈ c'.frames, InRange S.numWorkers g := by
  have hk := hi f h.mem_frame
  refine h.all hi (fun fs he g hg => ?_) fun g _ hg => hg
  have ha := acts_of_code he
  generalize c.mem = m, c'.mem = m' at ha
  clear h he hi
  cases ha with
  | hasDeps cur parent node hd =>
    obtain ⟨p, _, rfl⟩ := List.mem_map.mp hg
    trivial
  | _ =>
    simp at hg
    try rcases hg with rfl | rfl | rfl
    all_goals simp_all [InRange]

/-- The epoch a worker will sleep on is outdated, or about to be, once its status has changed. -/
theorem epoch_step (h : Step (code S) c f x c') {n : ℕ} (hi : Wakes n c) (hg : parksSafely c f) :
    ∀ w e, .futexWait w e ∈ c'.frames → e ≤ c'.mem.seq w ∧
      (c'.mem.status w ≠ 0 → e < c'.mem.seq w ∨ 0 < c'.total (notifying w)) := by
  intro w e hw
  have hloop : f = .workerLoop w → .futexWait w e ∉ c.frames := by
    rintro rfl hw
    have hact := le_total (active w) h.mem_frame
    have hpast := le_total (past w) hw
    have hone := hi.oneLoop w
    simp [active] at hact
    simp [past] at hpast
    split_ifs at hone <;> omega
  have hold := hi.epoch w e
  obtain ⟨fs, rest, he, hp, hp'⟩ := h.frames
  have hrest : .futexWait w e ∈ rest → .futexWait w e ∈ c.frames := fun hr => hp.mem_iff.mpr (List.mem_cons_of_mem _ hr)
  have hmem := List.mem_append.mp (hp'.mem_iff.mp hw)
  rw [total_of_perm hp, List.map_cons, List.sum_cons] at hold
  rw [total_of_perm hp', List.map_append, List.sum_append]
  have ha := acts_of_code he
  obtain ⟨m, threads⟩ := c
  generalize c'.mem = m' at ha ⊢
  clear h he hp hp' hw hi
  cases ha with
  | hasDeps cur parent node hd =>
    have hw := hold (hrest (hmem.resolve_left (by simp)))
    rw [List.map_map, sum_calls (g := notifying w) (Frame.schedule cur parent) fun _ => rfl]
    exact hw
  | snapshot worker =>
    rcases hmem with hm | hm
    · obtain ⟨rfl, rfl⟩ : w = worker ∧ e = m.seq worker := by simpa using hm
      exact ⟨le_refl _, fun hs => absurd hg hs⟩
    · simpa [notifying] using hold (hrest hm)
  | storeStatus worker | wakeParked worker hwn hs =>
    have hw := hold (hrest (hmem.resolve_left (by simp)))
    by_cases hww : worker = w
    · simpa [notifying, hww, Shared.setStatus] using hw.1
    · simpa [notifying, hww, Ne.symm hww, Shared.setStatus] using hw
  | workerLoop worker =>
    have hm := hrest (hmem.resolve_left (by simp))
    by_cases hww : worker = w
    · exact absurd hm (hloop (by rw [hww]))
    · simpa [notifying, Ne.symm hww, Shared.setStatus] using hold hm
  | announce worker hs =>
    have hw := hold (hrest (hmem.resolve_left (by simp)))
    by_cases hww : worker = w
    · simpa [hww, Shared.setStatus] using hw.1
    · simpa [notifying, Ne.symm hww, Shared.setStatus] using hw
  | notify worker =>
    have hw := hold (hrest (hmem.resolve_left (by simp)))
    by_cases hww : worker = w
    · subst hww
      simp at hw ⊢
      omega
    · simpa [notifying, hww, Ne.symm hww] using hw
  | wakeVictim worker victim hwn =>
    have hw := hold (hrest (hmem.resolve_left (by simp)))
    refine ⟨hw.1, fun hs => (hw.2 hs).imp_right fun hp => ?_⟩
    simp [notifying] at hp ⊢
    omega
  | _ =>
    exact hold (hrest (hmem.resolve_left (by simp)))

end Zpc.AsyncScheduler
