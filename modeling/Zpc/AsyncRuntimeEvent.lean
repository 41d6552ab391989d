import Mathlib.Tactic.Abel
import Zpc.Interleaving

/-! # Life cycle of an asynchronous task -/
namespace Zpc
inductive AsyncTaskStatus
  | pending | running | suspended | completed | cancelled | failed
  deriving DecidableEq, Repr

namespace AsyncTaskStatus
def isTerminal (status : AsyncTaskStatus) : Bool :=
  status == completed || status == cancelled || status == failed

@[simp] theorem isTerminal_pending : pending.isTerminal = false := rfl
@[simp] theorem isTerminal_running : running.isTerminal = false := rfl
@[simp] theorem isTerminal_suspended : suspended.isTerminal = false := rfl
@[simp] theorem isTerminal_completed : completed.isTerminal = true := rfl
@[simp] theorem isTerminal_cancelled : cancelled.isTerminal = true := rfl
@[simp] theorem isTerminal_failed : failed.isTerminal = true := rfl

end AsyncTaskStatus
end Zpc

/-!
## The completion event of the asynchronous runtime

`AsyncEvent` of `AsyncRuntime.hpp`: `transition` and `on_complete` each hold the
event's mutex while they look at the status, and run callbacks after releasing it.
A callback is any sequence of further calls on the same event. Waiting threads are
left out: they read the status and change nothing.
-/
namespace Zpc.AsyncRuntimeEvent
open Interleaving

variable {κ : Type*}

inductive Call (κ : Type*)
  | complete (status : AsyncTaskStatus)
  | onComplete (callback : κ)

/-- `SharedState`, with two records of the run: the callbacks handed to `on_complete`
and the callbacks invoked, each with the status it found. -/
structure SharedState (κ : Type*) where
  locked : Bool := false
  status : AsyncTaskStatus := .pending
  callbacks : List κ := []
  registered : List κ := []
  invoked : List (κ × AsyncTaskStatus) := []

inductive Frame (κ : Type*)
  | call (call : Call κ)
  | load (next : AsyncTaskStatus)
  | store (next : AsyncTaskStatus)
  | swap (next : AsyncTaskStatus)
  | check (callback : κ)
  | unlock
  | invoke (callbacks : List κ)

/-- The atomic actions of `transition` and `on_complete`; `body` is the code of a callback. -/
def code (body : κ → List (Call κ)) : Code (SharedState κ) (Frame κ) Unit
  | m, .call (.complete next), _ =>
      if m.locked then none else some ({m with locked := true}, [.load next])
  | m, .load next, _ =>
      if m.status.isTerminal then some (m, [.unlock]) else some (m, [.store next])
  | m, .store next, _ => some ({m with status := next}, [.swap next])
  | m, .swap next, _ =>
      if next.isTerminal then some ({m with callbacks := []}, [.unlock, .invoke m.callbacks])
      else some (m, [.unlock])
  | m, .call (.onComplete callback), _ =>
      if m.locked then none
      else some ({m with locked := true, registered := callback :: m.registered}, [.check callback])
  | m, .check callback, _ =>
      if m.status.isTerminal then some (m, [.unlock, .invoke [callback]])
      else some ({m with callbacks := m.callbacks ++ [callback]}, [.unlock])
  | m, .unlock, _ => some ({m with locked := false}, [])
  | m, .invoke [], _ => some (m, [])
  | m, .invoke (callback :: rest), _ =>
      some ({m with invoked := (callback, m.status) :: m.invoked}, (body callback).map .call ++ [.invoke rest])

/-- What one action does, branch by branch. -/
inductive Acts (body : κ → List (Call κ)) (m : SharedState κ) :
    Frame κ → SharedState κ → List (Frame κ) → Prop
  | lockTransition (next) (hl : m.locked = false) :
      Acts body m (.call (.complete next)) {m with locked := true} [.load next]
  | alreadyTerminal (next) (ht : m.status.isTerminal = true) : Acts body m (.load next) m [.unlock]
  | notTerminal (next) (ht : m.status.isTerminal = false) : Acts body m (.load next) m [.store next]
  | store (next) : Acts body m (.store next) {m with status := next} [.swap next]
  | drain (next) (ht : next.isTerminal = true) :
      Acts body m (.swap next) {m with callbacks := []} [.unlock, .invoke m.callbacks]
  | keep (next) (ht : next.isTerminal = false) : Acts body m (.swap next) m [.unlock]
  | lockRegistration (callback) (hl : m.locked = false) : Acts body m (.call (.onComplete callback))
      {m with locked := true, registered := callback :: m.registered} [.check callback]
  | invokeNow (callback) (ht : m.status.isTerminal = true) :
      Acts body m (.check callback) m [.unlock, .invoke [callback]]
  | push (callback) (ht : m.status.isTerminal = false) :
      Acts body m (.check callback) {m with callbacks := m.callbacks ++ [callback]} [.unlock]
  | unlock : Acts body m .unlock {m with locked := false} []
  | invoked : Acts body m (.invoke []) m []
  | invoke (callback rest) : Acts body m (.invoke (callback :: rest))
      {m with invoked := (callback, m.status) :: m.invoked} ((body callback).map .call ++ [.invoke rest])

theorem acts_of_code {body : κ → List (Call κ)} {m m' : SharedState κ} {f : Frame κ} {x : Unit}
    {fs : List (Frame κ)} (h : code body m f x = some (m', fs)) : Acts body m f m' fs := by
  unfold code at h
  split at h <;> (try split at h) <;> simp only [Option.some.injEq, Prod.mk.injEq, reduceCtorEq] at h <;>
    obtain ⟨rfl, rfl⟩ := h <;> constructor <;> simp_all

/-- Any number of threads, each about to make any sequence of calls on a fresh event. -/
def start (programs : List (List (Call κ))) : Config (SharedState κ) (Frame κ) :=
  ⟨{}, programs.map (·.map .call)⟩

def holds : Frame κ → ℕ
  | .load _ | .store _ | .swap _ | .check _ | .unlock => 1
  | _ => 0

def owed : Frame κ → Multiset κ
  | .check callback => {callback}
  | .invoke callbacks => callbacks
  | _ => 0

def draining : Frame κ → ℕ
  | .swap _ => 1
  | _ => 0

/-- What a frame knows about the event. -/
def Knows (m : SharedState κ) : Frame κ → Prop
  | .store _ => m.status.isTerminal = false
  | .swap next => m.status = next
  | .invoke callbacks => callbacks ≠ [] → m.status.isTerminal = true
  | _ => True

structure Invariant (c : Config (SharedState κ) (Frame κ)) : Prop where
  mutex : c.total holds = c.mem.locked.toNat
  account : (c.mem.registered : Multiset κ) =
    c.mem.callbacks + c.mem.invoked.map Prod.fst + c.total owed
  drained : c.mem.status.isTerminal = true → c.mem.callbacks = [] ∨ 0 < c.total draining
  knows : ∀ f ∈ c.frames, Knows c.mem f
  invoked : ∀ p ∈ c.mem.invoked, p.2 = c.mem.status ∧ c.mem.status.isTerminal = true
  onTop : c.OnlyTop fun f => holds f = 1

variable {body : κ → List (Call κ)} {programs : List (List (Call κ))}
  {c c' : Config (SharedState κ) (Frame κ)} {f : Frame κ} {x : Unit}

/-- At most one call is inside the mutex, and one is exactly while it is locked. -/
theorem mutex_step (h : Step (code body) c f x c') (hi : c.total holds = c.mem.locked.toNat) :
    c'.total holds = c'.mem.locked.toNat := by
  obtain ⟨fs, r, ha, hr, hr'⟩ := h.measure acts_of_code (holds (κ := κ))
  rw [hr] at hi
  rw [hr']
  have hb := Bool.toNat_le c.mem.locked
  generalize c.mem = m, c'.mem = m' at ha hi hb ⊢
  clear h hr hr'
  cases ha with
  | invoke callback rest => simpa [holds, sum_calls (g := holds) Frame.call (fun _ => rfl)] using hi
  | unlock => simp only [holds] at hi; simp; omega
  | _ => simp_all [holds]

/-- Every callback handed over is stored, invoked, or held by exactly one frame. -/
theorem account_step (h : Step (code body) c f x c')
    (hi : (c.mem.registered : Multiset κ) = c.mem.callbacks + c.mem.invoked.map Prod.fst + c.total owed) :
    (c'.mem.registered : Multiset κ) = c'.mem.callbacks + c'.mem.invoked.map Prod.fst + c'.total owed := by
  obtain ⟨fs, r, ha, hr, hr'⟩ := h.measure acts_of_code (owed (κ := κ))
  rw [hr] at hi
  rw [hr']
  generalize c.mem = m, c'.mem = m' at ha hi ⊢
  clear h hr hr'
  cases ha with
  | invoke callback rest =>
    simp only [List.map_append, List.map_map, List.sum_append, sum_calls (g := owed) Frame.call (fun _ => rfl), owed,
      List.map_cons, List.map_nil, List.sum_cons, List.sum_nil, ← Multiset.cons_coe, ← Multiset.singleton_add] at hi ⊢
    rw [hi]; abel
  | _ =>
    simp only [owed, List.map_cons, List.map_nil, List.sum_cons, List.sum_nil, ← Multiset.coe_add,
      ← Multiset.cons_coe, ← Multiset.singleton_add, Multiset.coe_nil] at hi ⊢
    rw [hi] <;> abel

/-- Stored callbacks outlive the end of the event only until the call that ended it takes them. -/
theorem drained_step (h : Step (code body) c f x c') (hk : Knows c.mem f)
    (hi : c.mem.status.isTerminal = true → c.mem.callbacks = [] ∨ 0 < c.total draining) :
    c'.mem.status.isTerminal = true → c'.mem.callbacks = [] ∨ 0 < c'.total draining := by
  obtain ⟨fs, r, ha, hr, hr'⟩ := h.measure acts_of_code (draining (κ := κ))
  rw [hr] at hi
  rw [hr']
  generalize c.mem = m, c'.mem = m' at ha hi hk ⊢
  clear h hr hr'
  cases ha with
  | invoke callback rest => simpa [draining, sum_calls (g := draining) Frame.call (fun _ => rfl)] using hi
  | _ => simp_all [draining, Knows]

theorem status_step (h : Step (code body) c f x c') :
    c'.mem.status = c.mem.status ∨ ∃ next, f = .store next ∧ c'.mem.status = next := by
  obtain ⟨fs, he⟩ := h.runs_code
  have ha := acts_of_code he
  generalize c'.mem = m' at ha ⊢
  cases ha with
  | store next => exact .inr ⟨next, rfl, rfl⟩
  | _ => exact .inl rfl

theorem Knows.congr {m m' : SharedState κ} (hs : m'.status = m.status) (hf : Knows m f) : Knows m' f := by
  cases f <;> simp_all [Knows]

theorem knows_step (h : Step (code body) c f x c') (hm : c.total holds = c.mem.locked.toNat)
    (hi : ∀ g ∈ c.frames, Knows c.mem g) : ∀ g ∈ c'.frames, Knows c'.mem g := by
  have hk := hi f h.mem_frame
  refine h.all hi (fun fs he g hg => ?_) (fun g hb hg => ?_)
  · have ha := acts_of_code he
    generalize c.mem = m, c'.mem = m' at ha hk ⊢
    clear h he hi hm
    cases ha with
    | invoke callback rest =>
      rcases List.mem_append.mp hg with hg | hg
      · obtain ⟨a, _, rfl⟩ := List.mem_map.mp hg
        trivial
      · obtain rfl := List.mem_singleton.mp hg
        exact fun _ => hk (by simp)
    | _ => simp at hg; try (rcases hg with rfl | rfl) <;> simp_all [Knows]
  · rcases status_step h with hs | ⟨next, rfl, hs⟩
    · exact hg.congr hs
    · have hle := hb.le_total holds
      have hl := Bool.toNat_le c.mem.locked
      have hg0 : holds g = 0 := by
        have hf : holds (Frame.store (κ := κ) next) = 1 := rfl
        omega
      cases g with
      | invoke callbacks => exact fun hc => absurd (hg hc) (by simp [show c.mem.status.isTerminal = false from hk])
      | call _ => trivial
      | _ => simp [holds] at hg0

theorem invoked_step (h : Step (code body) c f x c') (hk : Knows c.mem f)
    (hi : ∀ p ∈ c.mem.invoked, p.2 = c.mem.status ∧ c.mem.status.isTerminal = true) :
    ∀ p ∈ c'.mem.invoked, p.2 = c'.mem.status ∧ c'.mem.status.isTerminal = true := by
  obtain ⟨fs, he⟩ := h.runs_code
  have ha := acts_of_code he
  generalize c.mem = m, c'.mem = m' at ha hi hk ⊢
  cases ha with
  | invoke callback rest =>
    intro p hp
    rcases List.mem_cons.mp hp with rfl | hp
    · exact ⟨rfl, hk (by simp)⟩
    · exact hi p hp
  | store next =>
    have hk : m.status.isTerminal = false := hk
    intro p hp
    simp [hk] at hi
    exact absurd hp (hi p.1 p.2)
  | _ => exact hi

/-- Nothing is called while the mutex is held. -/
theorem onTop_step (h : Step (code body) c f x c') (hi : c.OnlyTop fun f => holds f = 1) :
    c'.OnlyTop fun f => holds f = 1 := by
  refine h.onlyTop hi fun fs he g hg => ?_
  have ha := acts_of_code he
  generalize c'.mem = m' at ha
  clear h he hi
  cases ha with
  | invoke callback rest =>
    rcases List.mem_append.mp (List.mem_of_mem_tail hg) with hg | hg
    · obtain ⟨a, _, rfl⟩ := List.mem_map.mp hg
      simp [holds]
    · obtain rfl := List.mem_singleton.mp hg
      simp [holds]
  | _ => simp at hg <;> simp [hg, holds]

theorem invariant_start : Invariant (start programs) := by
  refine ⟨total_programs Frame.call (fun _ => rfl) _ _, ?_, by simp [start], fun f hf => ?_, by simp [start], fun k hk f hf => ?_⟩
  · rw [show (start programs).total owed = 0 from total_programs Frame.call (fun _ => rfl) _ _]
    rfl
  · obtain ⟨a, rfl⟩ := mem_programs hf
    trivial
  · obtain ⟨a, rfl⟩ := mem_programs (List.mem_flatten.mpr ⟨k, hk, List.mem_of_mem_tail hf⟩)
    simp [holds]

theorem invariant_step (h : Step (code body) c f x c') (hi : Invariant c) : Invariant c' :=
  have hk := hi.knows f h.mem_frame
  ⟨mutex_step h hi.mutex, account_step h hi.account, drained_step h hk hi.drained,
    knows_step h hi.mutex hi.knows, invoked_step h hk hi.invoked, onTop_step h hi.onTop⟩

theorem invariant_reaches (h : Reaches (code body) free (start programs) c) : Invariant c := by
  induction h with
  | refl => exact invariant_start
  | step _ _ hs ih => exact invariant_step hs ih

theorem blocked_locked {m : SharedState κ} (h : code body m f x = none) : m.locked = true ∧ holds f = 0 := by
  unfold code at h
  split at h <;> (try split at h) <;> simp_all [holds]

theorem returned_of_quiescent (hi : Invariant c) (hq : Quiescent (code body) c) : c.frames = [] :=
  hq.returned hi.mutex hi.onTop fun _ hb => blocked_locked (hb ())

/-- Once terminal, the status is never written again. -/
theorem status_reaches (h : Reaches (code body) free (start programs) c) (ht : c.mem.status.isTerminal = true)
    (h' : Reaches (code body) free c c') : c'.mem.status = c.mem.status := by
  induction h' with
  | refl => rfl
  | step hr _ hs ih =>
    rcases status_step hs with hq | ⟨next, rfl, _⟩
    · exact hq.trans ih
    · have hk := (invariant_reaches (h.trans hr)).knows _ hs.mem_frame
      rw [← ih] at ht
      simp [Knows, ht] at hk

/-- Whatever the threads do: the first terminal status stays, callbacks run only after it,
and once no thread can act each registration has been answered by exactly one
invocation if the event is terminal and by none otherwise. -/
theorem callbacks_exactly_once (h : Reaches (code body) free (start programs) c) :
    (∀ c', c.mem.status.isTerminal = true → Reaches (code body) free c c' → c'.mem.status = c.mem.status) ∧
    (∀ p ∈ c.mem.invoked, p.2.isTerminal = true) ∧
    (Quiescent (code body) c → if c.mem.status.isTerminal then (c.mem.invoked.map Prod.fst).Perm c.mem.registered
      else c.mem.invoked = []) := by
  have hi := invariant_reaches h
  refine ⟨fun c' ht h' => status_reaches h ht h', fun p hp => ?_, fun hq => ?_⟩
  · obtain ⟨hs, ht⟩ := hi.invoked p hp
    rw [hs]
    exact ht
  · split_ifs with ht
    · have ha := hi.account
      have hd := hi.drained ht
      have hf := returned_of_quiescent hi hq
      simp only [Config.total, hf, List.map_nil, List.sum_nil, add_zero, lt_irrefl, or_false] at ha hd
      rw [hd] at ha
      exact Multiset.coe_eq_coe.mp (by simpa using ha.symm)
    · exact List.eq_nil_iff_forall_not_mem.mpr fun p hp => ht (hi.invoked p hp).2

/-- A registration between the completion of the event and the run of its stored callback: both
callbacks are invoked once. -/
theorem callbacks_exactly_once_race : ∃ c, Reaches (code fun _ => []) free
    (start [[.onComplete 0, .onComplete 1], [.complete .completed]]) c ∧ c.mem.registered = [1, 0] ∧
    (c.mem.invoked.map Prod.fst).Perm c.mem.registered := by
  have he : (runs (code fun _ : ℕ => []) free (start [[.onComplete 0, .onComplete 1], [.complete .completed]])
      ([0, 0, 0, 1, 1, 1, 1, 1, 0, 0, 0, 0, 0, 1, 1].map (·, ()))).map
        (fun c => (c.threads.map List.length, c.mem.status, c.mem.registered)) =
      some ([0, 0], .completed, [1, 0]) := rfl
  obtain ⟨c, hc, he⟩ := Option.map_eq_some_iff.mp he
  simp only [Prod.mk.injEq] at he
  have hq : Quiescent (code fun _ => []) c := quiescent_of_lengths (n := 2) he.1
  have h := (callbacks_exactly_once (reaches_of_runs hc)).2.2 hq
  rw [he.2.1] at h
  exact ⟨c, reaches_of_runs hc, he.2.2, h⟩

end Zpc.AsyncRuntimeEvent
