import Zpc.AsyncRuntimeEvent

/-!
# The callback event with a fixed callback store

`AsyncEventState` of `AsyncEvent.hpp`, as created by `AsyncEvent::create`: `complete`
tests and stores the status without the mutex and locks only to take the callbacks,
and a registration that finds the eight places full is let go.
-/
namespace Zpc.AsyncCallbackEvent
open Interleaving

variable {κ : Type*}

inductive Call (κ : Type*)
  | complete (finalStatus : AsyncTaskStatus)
  | onComplete (cb : κ)

/-- `AsyncEventState`, with the callbacks registered and those invoked in the run, each
with the status it found. -/
structure AsyncEventState (κ : Type*) where
  status : AsyncTaskStatus := .pending
  locked : Bool := false
  callbacks : List κ := []
  registered : List κ := []
  invoked : List (κ × AsyncTaskStatus) := []

/-- The places of the `StaticVector` of callbacks. -/
def capacity : ℕ := 8

inductive Frame (κ : Type*)
  | call (call : Call κ)
  | store (finalStatus : AsyncTaskStatus)
  | drain
  | move
  | lock (cb : κ)
  | check (cb : κ)
  | push (cb : κ)
  | unlock
  | invoke (cbs : List κ)

/-- The atomic actions of `complete` and `on_complete`; `body` is the code of a callback. -/
def code (body : κ → List (Call κ)) : Code (AsyncEventState κ) (Frame κ) Unit
  | m, .call (.complete finalStatus), _ =>
      if m.status.isTerminal then some (m, []) else some (m, [.store finalStatus])
  | m, .store finalStatus, _ => some ({m with status := finalStatus}, [.drain])
  | m, .drain, _ => if m.locked then none else some ({m with locked := true}, [.move])
  | m, .move, _ => some ({m with callbacks := []}, [.unlock, .invoke m.callbacks])
  | m, .call (.onComplete cb), _ =>
      if m.status.isTerminal then some ({m with registered := cb :: m.registered}, [.invoke [cb]])
      else some ({m with registered := cb :: m.registered}, [.lock cb])
  | m, .lock cb, _ => if m.locked then none else some ({m with locked := true}, [.check cb])
  | m, .check cb, _ =>
      if m.status.isTerminal then some (m, [.unlock, .invoke [cb]]) else some (m, [.push cb])
  | m, .push cb, _ =>
      if m.callbacks.length < capacity then some ({m with callbacks := m.callbacks ++ [cb]}, [.unlock])
      else some (m, [.unlock])
  | m, .unlock, _ => some ({m with locked := false}, [])
  | m, .invoke [], _ => some (m, [])
  | m, .invoke (cb :: cbs), _ =>
      some ({m with invoked := (cb, m.status) :: m.invoked}, (body cb).map .call ++ [.invoke cbs])

/-- What one action does, branch by branch. -/
inductive Acts (body : κ → List (Call κ)) (m : AsyncEventState κ) :
    Frame κ → AsyncEventState κ → List (Frame κ) → Prop
  | alreadyTerminal (finalStatus) (ht : m.status.isTerminal = true) :
      Acts body m (.call (.complete finalStatus)) m []
  | notTerminal (finalStatus) (ht : m.status.isTerminal = false) :
      Acts body m (.call (.complete finalStatus)) m [.store finalStatus]
  | store (finalStatus) : Acts body m (.store finalStatus) {m with status := finalStatus} [.drain]
  | drain (hl : m.locked = false) : Acts body m .drain {m with locked := true} [.move]
  | move : Acts body m .move {m with callbacks := []} [.unlock, .invoke m.callbacks]
  | registerLate (cb) (ht : m.status.isTerminal = true) : Acts body m (.call (.onComplete cb))
      {m with registered := cb :: m.registered} [.invoke [cb]]
  | register (cb) (ht : m.status.isTerminal = false) : Acts body m (.call (.onComplete cb))
      {m with registered := cb :: m.registered} [.lock cb]
  | lock (cb) (hl : m.locked = false) : Acts body m (.lock cb) {m with locked := true} [.check cb]
  | checkLate (cb) (ht : m.status.isTerminal = true) : Acts body m (.check cb) m [.unlock, .invoke [cb]]
  | check (cb) (ht : m.status.isTerminal = false) : Acts body m (.check cb) m [.push cb]
  | push (cb) (hl : m.callbacks.length < capacity) :
      Acts body m (.push cb) {m with callbacks := m.callbacks ++ [cb]} [.unlock]
  | full (cb) (hl : ¬ m.callbacks.length < capacity) : Acts body m (.push cb) m [.unlock]
  | unlock : Acts body m .unlock {m with locked := false} []
  | invoked : Acts body m (.invoke []) m []
  | invoke (cb cbs) : Acts body m (.invoke (cb :: cbs))
      {m with invoked := (cb, m.status) :: m.invoked} ((body cb).map .call ++ [.invoke cbs])

theorem acts_of_code {body : κ → List (Call κ)} {m m' : AsyncEventState κ} {f : Frame κ} {x : Unit}
    {fs : List (Frame κ)} (h : code body m f x = some (m', fs)) : Acts body m f m' fs := by
  unfold code at h
  split at h <;> (try split at h) <;> simp only [Option.some.injEq, Prod.mk.injEq, reduceCtorEq] at h <;>
    obtain ⟨rfl, rfl⟩ := h <;> constructor <;> simp_all

/-- Any number of threads, each about to make any sequence of calls on a fresh event. -/
def start (programs : List (List (Call κ))) : Config (AsyncEventState κ) (Frame κ) :=
  ⟨{}, programs.map (·.map .call)⟩

/-- The actions that keep the promise of the event: no store replaces a terminal status,
callbacks are taken out only from a terminal event, and a registration finds a free place. -/
def keeps : Guard (AsyncEventState κ) (Frame κ)
  | c, .store finalStatus => c.mem.status.isTerminal = true → finalStatus = c.mem.status
  | c, .move => c.mem.status.isTerminal = true ∨ c.mem.callbacks = []
  | c, .push _ => c.mem.callbacks.length < capacity
  | _, _ => True

def holds : Frame κ → ℕ
  | .move | .check _ | .push _ | .unlock => 1
  | _ => 0

def owed : Frame κ → Multiset κ
  | .lock cb | .check cb | .push cb => {cb}
  | .invoke cbs => cbs
  | _ => 0

def draining : Frame κ → ℕ
  | .drain | .move => 1
  | _ => 0

structure Invariant (c : Config (AsyncEventState κ) (Frame κ)) : Prop where
  mutex : c.total holds = c.mem.locked.toNat
  account : (c.mem.registered : Multiset κ) =
    c.mem.callbacks + c.mem.invoked.map Prod.fst + c.total owed
  drained : c.mem.status.isTerminal = true →
    (c.mem.callbacks = [] ∧ ∀ cb, .push cb ∉ c.frames) ∨ 0 < c.total draining
  invoking : ∀ cbs, .invoke cbs ∈ c.frames → cbs ≠ [] → c.mem.status.isTerminal = true
  invoked : ∀ p ∈ c.mem.invoked, p.2 = c.mem.status ∧ c.mem.status.isTerminal = true
  onTop : c.OnlyTop fun f => holds f = 1

variable {body : κ → List (Call κ)} {programs : List (List (Call κ))}
  {c c' : Config (AsyncEventState κ) (Frame κ)} {f : Frame κ} {x : Unit}

/-- At most one call is inside the mutex, and one is exactly while it is locked. -/
theorem mutex_step (h : Step (code body) c f x c') (hi : c.total holds = c.mem.locked.toNat) :
    c'.total holds = c'.mem.locked.toNat := by
  obtain ⟨fs, r, ha, hr, hr'⟩ := h.measure acts_of_code (holds (κ := κ))
  rw [hr] at hi
  rw [hr']
  have hb := Bool.toNat_le c.mem.locked
  generalize c.mem = m, c'.mem = m' at ha hi hb ⊢
  clear h hr hr'
  cases ha with
  | invoke cb cbs => simpa [holds, sum_calls (g := holds) Frame.call (fun _ => rfl)] using hi
  | unlock => simp only [holds] at hi; simp; omega
  | _ => simp_all [holds]

/-- Every registered callback is stored, invoked, or held by exactly one frame. -/
theorem account_step (h : Step (code body) c f x c') (hg : keeps c f)
    (hi : (c.mem.registered : Multiset κ) = c.mem.callbacks + c.mem.invoked.map Prod.fst + c.total owed) :
    (c'.mem.registered : Multiset κ) = c'.mem.callbacks + c'.mem.invoked.map Prod.fst + c'.total owed := by
  obtain ⟨fs, r, ha, hr, hr'⟩ := h.measure acts_of_code (owed (κ := κ))
  rw [hr] at hi
  rw [hr']
  obtain ⟨m, threads⟩ := c
  generalize c'.mem = m' at ha ⊢
  clear h hr hr'
  cases ha with
  | full cb hl => exact absurd hg hl
  | invoke cb cbs =>
    simp only [List.map_append, List.map_map, List.sum_append, sum_calls (g := owed) Frame.call (fun _ => rfl), owed,
      List.map_cons, List.map_nil, List.sum_cons, List.sum_nil, ← Multiset.cons_coe, ← Multiset.singleton_add] at hi ⊢
    rw [hi]; abel
  | _ =>
    simp only [owed, List.map_cons, List.map_nil, List.sum_cons, List.sum_nil, ← Multiset.coe_add,
      ← Multiset.cons_coe, ← Multiset.singleton_add, Multiset.coe_nil] at hi ⊢
    rw [hi] <;> abel

/-- Under the guard a terminal status is final. -/
theorem status_step (h : Step (code body) c f x c') (hg : keeps c f) :
    c'.mem.status = c.mem.status ∨ c.mem.status.isTerminal = false := by
  obtain ⟨fs, he⟩ := h.runs_code
  have ha := acts_of_code he
  obtain ⟨m, threads⟩ := c
  generalize c'.mem = m' at ha ⊢
  cases ha with
  | store finalStatus =>
    cases ht : m.status.isTerminal with
    | false => exact .inr rfl
    | true => exact .inl (hg ht)
  | _ => exact .inl rfl

/-- Callbacks stored in a terminal event, or about to be, have a `complete` call coming for them:
the one that made the event terminal cannot get the mutex before the registration leaves it. -/
theorem drained_step (h : Step (code body) c f x c') (hg : keeps c f) (hm : c.total holds = c.mem.locked.toNat)
    (hi : c.mem.status.isTerminal = true →
      (c.mem.callbacks = [] ∧ ∀ cb, .push cb ∉ c.frames) ∨ 0 < c.total draining) :
    c'.mem.status.isTerminal = true →
      (c'.mem.callbacks = [] ∧ ∀ cb, .push cb ∉ c'.frames) ∨ 0 < c'.total draining := by
  obtain ⟨fs, rest, he, hp, hp'⟩ := h.frames
  have hf := h.mem_frame
  have hpush : ∀ cb, Frame.push cb ∈ c'.frames ↔ .push cb ∈ fs ∨ .push cb ∈ rest := fun cb => by
    rw [hp'.mem_iff, List.mem_append]
  have hmove : ∀ cb, f = .move → .push cb ∉ rest := fun cb hfm hc => by
    have hle := Beside.le_total ⟨rest, hp, hc⟩ holds
    have hb := Bool.toNat_le c.mem.locked
    simp only [hfm, holds] at hle
    omega
  simp only [total_of_perm hp, total_of_perm hp', hp.mem_iff, hpush, List.map_append, List.map_cons,
    List.sum_append, List.sum_cons] at hi ⊢
  have ha := acts_of_code he
  obtain ⟨m, threads⟩ := c
  generalize c'.mem = m' at ha ⊢
  cases ha with
  | invoke cb cbs =>
    simp only [List.map_append, List.map_map, sum_calls (g := draining) Frame.call (fun _ => rfl), List.sum_append]
    intro ht
    simpa [draining] using hi ht
  | move => exact fun _ => .inl ⟨rfl, fun cb => by simpa using hmove cb rfl⟩
  | push cb hl =>
    intro ht
    exact .inr (by simpa [draining] using (hi ht).resolve_left fun hn => hn.2 cb List.mem_cons_self)
  | full cb hl => exact absurd hg hl
  | _ => simp_all [draining]

theorem invoking_step (h : Step (code body) c f x c') (hg : keeps c f)
    (hi : ∀ cbs, .invoke cbs ∈ c.frames → cbs ≠ [] → c.mem.status.isTerminal = true) :
    ∀ cbs, .invoke cbs ∈ c'.frames → cbs ≠ [] → c'.mem.status.isTerminal = true := by
  intro cbs hc hne
  obtain ⟨fs, rest, he, hp, hp'⟩ := h.frames
  have hs : c.mem.status.isTerminal = true → c'.mem.status.isTerminal = true := by
    rcases status_step h hg with hs | hs <;> simp [hs]
  rcases List.mem_append.mp (hp'.mem_iff.mp hc) with hc | hc
  · have hk : ∀ cbs, f = .invoke cbs → cbs ≠ [] → c.mem.status.isTerminal = true :=
      fun cbs hf => hi cbs (hf ▸ h.mem_frame)
    refine hs ?_
    have ha := acts_of_code he
    obtain ⟨m, threads⟩ := c
    generalize c'.mem = m' at ha
    clear h he hi hs hp
    cases ha with
    | move => obtain rfl : cbs = m.callbacks := by simpa using hc
              exact hg.resolve_right hne
    | registerLate cb ht => exact ht
    | checkLate cb ht => exact ht
    | invoke cb rest => exact hk _ rfl (by simp)
    | _ => simp at hc
  · exact hs (hi cbs (hp.mem_iff.mpr (List.mem_cons_of_mem _ hc)) hne)

theorem invoked_step (h : Step (code body) c f x c') (hg : keeps c f)
    (hk : ∀ cbs, .invoke cbs ∈ c.frames → cbs ≠ [] → c.mem.status.isTerminal = true)
    (hi : ∀ p ∈ c.mem.invoked, p.2 = c.mem.status ∧ c.mem.status.isTerminal = true) :
    ∀ p ∈ c'.mem.invoked, p.2 = c'.mem.status ∧ c'.mem.status.isTerminal = true := by
  have hf := h.mem_frame
  obtain ⟨fs, he⟩ := h.runs_code
  have ha := acts_of_code he
  obtain ⟨m, threads⟩ := c
  generalize c'.mem = m' at ha ⊢
  cases ha with
  | invoke cb cbs =>
    intro p hp
    rcases List.mem_cons.mp hp with rfl | hp
    · exact ⟨rfl, hk _ hf (by simp)⟩
    · exact hi p hp
  | store finalStatus =>
    intro p hp
    obtain ⟨hs, ht⟩ := hi p hp
    rw [show finalStatus = m.status from hg ht]
    exact ⟨hs, ht⟩
  | _ => exact hi

/-- Nothing is called while the mutex is held. -/
theorem onTop_step (h : Step (code body) c f x c') (hi : c.OnlyTop fun f => holds f = 1) :
    c'.OnlyTop fun f => holds f = 1 := by
  refine h.onlyTop hi fun fs he g hg => ?_
  have ha := acts_of_code he
  generalize c'.mem = m' at ha
  clear h he hi
  cases ha with
  | invoke cb cbs =>
    rcases List.mem_append.mp (List.mem_of_mem_tail hg) with hg | hg
    · obtain ⟨a, _, rfl⟩ := List.mem_map.mp hg
      simp [holds]
    · obtain rfl := List.mem_singleton.mp hg
      simp [holds]
  | _ => simp at hg <;> simp [hg, holds]

theorem invariant_start : Invariant (start programs) := by
  have hf : ∀ f ∈ (start programs).frames, ∃ a, f = .call a := fun f hf => mem_programs hf
  refine ⟨total_programs Frame.call (fun _ => rfl) _ _, ?_, by simp [start], fun cbs hc => ?_, by simp [start],
    fun k hk f hf' => ?_⟩
  · rw [show (start programs).total owed = 0 from total_programs Frame.call (fun _ => rfl) _ _]
    rfl
  · obtain ⟨a, ha⟩ := hf _ hc
    cases ha
  · obtain ⟨a, rfl⟩ := hf f (List.mem_flatten.mpr ⟨k, hk, List.mem_of_mem_tail hf'⟩)
    simp [holds]

theorem invariant_step (h : Step (code body) c f x c') (hg : keeps c f) (hi : Invariant c) : Invariant c' :=
  ⟨mutex_step h hi.mutex, account_step h hg hi.account, drained_step h hg hi.mutex hi.drained,
    invoking_step h hg hi.invoking, invoked_step h hg hi.invoking hi.invoked, onTop_step h hi.onTop⟩

theorem invariant_reaches (h : Reaches (code body) keeps (start programs) c) : Invariant c := by
  induction h with
  | refl => exact invariant_start
  | step _ hg hs ih => exact invariant_step hs hg ih

theorem status_reaches (ht : c.mem.status.isTerminal = true) (h : Reaches (code body) keeps c c') :
    c'.mem.status = c.mem.status := by
  induction h with
  | refl => rfl
  | step _ hg hs ih =>
    rcases status_step hs hg with hq | hq
    · exact hq.trans ih
    · rw [ih, ht] at hq
      cases hq

theorem blocked_locked {m : AsyncEventState κ} (h : code body m f x = none) : m.locked = true ∧ holds f = 0 := by
  unfold code at h
  split at h <;> (try split at h) <;> simp_all [holds]

theorem returned_of_quiescent (hi : Invariant c) (hq : Quiescent (code body) c) : c.frames = [] :=
  hq.returned hi.mutex hi.onTop fun _ hb => blocked_locked (hb ())

/-- In every run whose actions keep the promise, the first terminal status stays, callbacks run
only after it, and once no thread can act each registration has been answered by exactly one
invocation if the event is terminal and by none otherwise. -/
theorem callbacks_exactly_once_of_keeps (h : Reaches (code body) keeps (start programs) c) :
    (∀ c', c.mem.status.isTerminal = true → Reaches (code body) keeps c c' → c'.mem.status = c.mem.status) ∧
    (∀ p ∈ c.mem.invoked, p.2.isTerminal = true) ∧
    (Quiescent (code body) c → if c.mem.status.isTerminal then (c.mem.invoked.map Prod.fst).Perm c.mem.registered
      else c.mem.invoked = []) := by
  have hi := invariant_reaches h
  refine ⟨fun c' ht h' => status_reaches ht h', fun p hp => ?_, fun hq => ?_⟩
  · obtain ⟨hs, ht⟩ := hi.invoked p hp
    rw [hs]
    exact ht
  · split_ifs with ht
    · have ha := hi.account
      have hd := hi.drained ht
      have hf := returned_of_quiescent hi hq
      simp only [Config.total, hf, List.map_nil, List.sum_nil, add_zero, lt_irrefl, or_false] at ha hd
      rw [hd.1] at ha
      exact Multiset.coe_eq_coe.mp (by simpa using ha.symm)
    · exact List.eq_nil_iff_forall_not_mem.mpr fun p hp => ht (hi.invoked p hp).2

instance (c : Config (AsyncEventState κ) (Frame κ)) (f : Frame κ) [DecidableEq κ] : Decidable (keeps c f) := by
  unfold keeps
  split <;> infer_instance

/-- A number of registrations and a completion on one thread. -/
def registrations (n : ℕ) : List (Call ℕ) := (List.range n).map .onComplete ++ [.complete .completed]

/-- Even one thread can lose a callback: the ninth registration is dropped. -/
theorem ninth_callback_dropped : ¬ ∀ c, Reaches (code fun _ => []) free (start [registrations 9]) c →
    Quiescent (code fun _ => []) c → c.mem.status.isTerminal = true →
    (c.mem.invoked.map Prod.fst).Perm c.mem.registered := by
  intro h
  have he : (runs (code fun _ => []) free (start [registrations 9]) (List.replicate 59 (0, ()))).map
      (fun c => (c.threads.map List.length, c.mem.status, c.mem.invoked.length, c.mem.registered.length)) =
      some ([0], .completed, 8, 9) := rfl
  obtain ⟨c, hc, he⟩ := Option.map_eq_some_iff.mp he
  simp only [Prod.mk.injEq] at he
  obtain ⟨ht, hs, hn, hr⟩ := he
  have hp := (h c (reaches_of_runs hc) (quiescent_of_lengths (n := 1) ht) (by rw [hs]; rfl)).length_eq
  rw [List.length_map, hn, hr] at hp
  cases hp

/-- Eight registrations and a completion keep the promise. -/
theorem callbacks_exactly_once_of_eight : ∃ c, Reaches (code fun _ => []) keeps (start [registrations 8]) c ∧
    c.mem.invoked.length = 8 ∧ (c.mem.invoked.map Prod.fst).Perm c.mem.registered := by
  have he : (runs (code fun _ => []) keeps (start [registrations 8]) (List.replicate 54 (0, ()))).map
      (fun c => (c.threads.map List.length, c.mem.status, c.mem.invoked.length)) = some ([0], .completed, 8) := rfl
  obtain ⟨c, hc, he⟩ := Option.map_eq_some_iff.mp he
  simp only [Prod.mk.injEq] at he
  obtain ⟨ht, hs, hn⟩ := he
  have h := (callbacks_exactly_once_of_keeps (reaches_of_runs hc)).2.2 (quiescent_of_lengths (n := 1) ht)
  rw [hs] at h
  exact ⟨c, reaches_of_runs hc, hn, h⟩

end Zpc.AsyncCallbackEvent
