import Zpc.AsyncScheduler
import Mathlib.Tactic.Linarith

/-!
# Waiting for the scheduler

The counter of outstanding jobs is the number of tasks counted and not yet discounted as
long as no worker discounts a task before its enqueuer has counted it. Then `wait` sees
zero only when the tasks enqueued before it, and all that these made, have finished.
-/
namespace Zpc.AsyncScheduler
open Interleaving

/-- Every worker discounts a task only after the task's `enqueue_` call has counted it. -/
def counted : Guard Shared Frame
  | c, .sub task => task.id ∈ c.mem.added
  | _, _ => True

instance (c : Config Shared Frame) (f : Frame) : Decidable (counted c f) :=
  decidable_of_bool (match f with | .sub task => task.id ∈ c.mem.added | _ => true) (by cases f <;> simp [counted])

/-- The task whose `enqueue_` call has still to count it. -/
def uncounted : Frame → Option Task
  | .enqueue _ task _ | .tryLocal task _ | .displace task _ | .pushDisplaced _ task _ | .addLocal task _
  | .tryGlobal task | .addGlobal task => some task
  | _ => none

def runs? : Frame → Option ℕ
  | .process _ task | .body _ task | .markDone _ task _ | .release _ task _ | .addExtra task | .sub task => some task.id
  | _ => none

def heldIds : Frame → List ℕ
  | .enqueue _ task _ | .tryLocal task _ | .displace task _ | .tryGlobal task => [task.id]
  | .pushDisplaced displaced task _ => [displaced.id, task.id]
  | f => (runs? f).toList

def held (id : ℕ) (f : Frame) : ℕ := (heldIds f).count id

def toCount (id : ℕ) (f : Frame) : ℕ := ((uncounted f).map (·.id)).toList.count id

def toReturn (id : ℕ) : Frame → ℕ
  | .returned id' => if id' = id then 1 else 0
  | _ => 0

def settled (m : Shared) (id : ℕ) : ℕ :=
  m.localQueues.countP (·.2.id = id) + m.globalQueue.countP (·.id = id) + m.subbed.count id

def given (m : Shared) (id : ℕ) : ℕ := (List.range m.nextId).count id

def parent? : Frame → Option ℕ
  | .call _ parent _ | .schedule _ parent _ | .loadDeps _ parent _ => parent
  | f => (uncounted f).bind (·.parent)

def returns? : Frame → Option ℕ
  | .returned id => some id
  | _ => none

def Ran (m : Shared) : Frame → Prop
  | .markDone _ task _ | .release _ task _ | .addExtra task | .sub task => task.id ∈ m.finished
  | .waitLoop ids => ∀ id ∈ ids, id ∈ m.returned
  | _ => True

structure Counts (c : Config Shared Frame) : Prop where
  atOnePlace : ∀ id, c.total (held id) + settled c.mem id = given c.mem id
  countedOnce : ∀ id, c.total (toCount id) + c.mem.added.count id = given c.mem id
  returnedOnce : ∀ id, c.total (toReturn id) + c.mem.returned.count id = given c.mem id
  remaining : c.mem.remainingJobs + c.mem.subbed.length = c.mem.added.length + c.mem.extra
  subbed : ∀ id ∈ c.mem.subbed, id ∈ c.mem.added ∧ id ∈ c.mem.finished
  ran : ∀ f ∈ c.frames, Ran c.mem f
  spawned : ∀ p ∈ c.mem.spawned, p.2 ∈ c.mem.added ∨
    ∃ f ∈ c.frames, ∃ task, uncounted f = some task ∧ task.id = p.2 ∧ task.parent = some p.1
  nested : ∀ k ∈ c.threads, Config.Served parent? runs? none k
  returning : ∀ k ∈ c.threads, Config.Served (fun f => (uncounted f).map (·.id)) returns? none k

variable {S : Setting} {numDeps : ℕ → ℤ} {programs : List (List Call)} {c c' : Config Shared Frame} {f : Frame}
  {x : Choice}

/-- Every task is at one place: held by a frame, in a queue, or discounted. -/
theorem held_step (h : Step (code S) c f x c') {id : ℕ} (hi : c.total (held id) + settled c.mem id = given c.mem id) :
    c'.total (held id) + settled c'.mem id = given c'.mem id := by
  obtain ⟨fs, r, ha, hr, hr'⟩ := h.measure acts_of_code (held id)
  rw [hr] at hi
  rw [hr']
  generalize c.mem = m, c'.mem = m' at ha hi ⊢
  clear h hr hr'
  cases ha with
  | takeLocal worker task queues hq | takeStolen worker victim rest task queues hq | takeDisplaced task worker displaced queues hq =>
    simp [held, heldIds, runs?, settled, given, hq.countP_eq, List.countP_cons, List.count_cons] at hi ⊢
    omega
  | takeGlobal worker task queues hq =>
    simp [held, heldIds, runs?, settled, given, hq.countP_eq, List.countP_cons, List.count_cons] at hi ⊢
    omega
  | hasDeps cur parent node hd =>
    rw [List.map_map, sum_calls (g := held id) (Frame.schedule cur parent) fun _ => rfl]
    exact hi
  | callEnqueue cur parent kind workerId | noDeps cur parent node hd =>
    simp [held, heldIds, runs?, settled, given, Shared.handIn, Shared.spawn, List.range_succ, List.count_cons] at hi ⊢
    omega
  | suspendNode worker task node hk | releaseLast worker task succ rest hd =>
    simp [held, heldIds, runs?, settled, given, Shared.handIn, Shared.spawn, List.range_succ, List.count_cons] at hi ⊢
    omega
  | _ =>
    first
    | exact hi
    | simp [held, heldIds, runs?, settled, given, List.countP_cons, List.count_cons] at hi ⊢
      try omega

theorem toCount_step (h : Step (code S) c f x c') {id : ℕ}
    (hi : c.total (toCount id) + c.mem.added.count id = given c.mem id) :
    c'.total (toCount id) + c'.mem.added.count id = given c'.mem id := by
  obtain ⟨fs, r, ha, hr, hr'⟩ := h.measure acts_of_code (toCount id)
  rw [hr] at hi
  rw [hr']
  generalize c.mem = m, c'.mem = m' at ha hi ⊢
  clear h hr hr'
  cases ha with
  | hasDeps cur parent node hd =>
    rw [List.map_map, sum_calls (g := toCount id) (Frame.schedule cur parent) fun _ => rfl]
    exact hi
  | callEnqueue cur parent kind workerId | noDeps cur parent node hd =>
    simp [toCount, uncounted, given, Shared.handIn, Shared.spawn, List.range_succ, List.count_cons] at hi ⊢
    omega
  | suspendNode worker task node hk | releaseLast worker task succ rest hd =>
    simp [toCount, uncounted, given, Shared.handIn, Shared.spawn, List.range_succ, List.count_cons] at hi ⊢
    omega
  | _ =>
    first
    | exact hi
    | simp [toCount, uncounted, given, List.count_cons] at hi ⊢
      try omega

theorem toReturn_step (h : Step (code S) c f x c') {id : ℕ}
    (hi : c.total (toReturn id) + c.mem.returned.count id = given c.mem id) :
    c'.total (toReturn id) + c'.mem.returned.count id = given c'.mem id := by
  obtain ⟨fs, r, ha, hr, hr'⟩ := h.measure acts_of_code (toReturn id)
  rw [hr] at hi
  rw [hr']
  generalize c.mem = m, c'.mem = m' at ha hi ⊢
  clear h hr hr'
  cases ha with
  | hasDeps cur parent node hd =>
    rw [List.map_map, sum_calls (g := toReturn id) (Frame.schedule cur parent) fun _ => rfl]
    exact hi
  | callEnqueue cur parent kind workerId | noDeps cur parent node hd =>
    simp [toReturn, given, Shared.handIn, Shared.spawn, List.range_succ, List.count_cons] at hi ⊢
    omega
  | suspendNode worker task node hk | releaseLast worker task succ rest hd =>
    simp [toReturn, given, Shared.handIn, Shared.spawn, List.range_succ, List.count_cons] at hi ⊢
    omega
  | _ =>
    first
    | exact hi
    | simp [toReturn, given, List.count_cons] at hi ⊢
      try omega

/-- The counter is the number of tasks counted less those discounted, and one more for each
resumption that suspended. -/
theorem remaining_step (h : Step (code S) c f x c')
    (hi : c.mem.remainingJobs + c.mem.subbed.length = c.mem.added.length + c.mem.extra) :
    c'.mem.remainingJobs + c'.mem.subbed.length = c'.mem.added.length + c'.mem.extra := by
  obtain ⟨fs, he⟩ := h.runs_code
  have ha := acts_of_code he
  generalize c.mem = m, c'.mem = m' at ha hi ⊢
  clear h he
  cases ha with
  | addLocal task worker | addLocalWake task worker | addGlobal task | addExtra task | sub task => simp; omega
  | _ => exact hi

theorem records_step (h : Step (code S) c f x c') : (∀ id ∈ c.mem.added, id ∈ c'.mem.added) ∧
    (∀ id ∈ c.mem.finished, id ∈ c'.mem.finished) ∧ ∀ id ∈ c.mem.returned, id ∈ c'.mem.returned := by
  obtain ⟨fs, he⟩ := h.runs_code
  have ha := acts_of_code he
  generalize c.mem = m, c'.mem = m' at ha ⊢
  cases ha <;> simp +contextual [Shared.handIn, Shared.spawn, Shared.setStatus, Shared.setNode]

theorem Ran.mono {m m' : Shared} (hf : ∀ id ∈ m.finished, id ∈ m'.finished)
    (hr : ∀ id ∈ m.returned, id ∈ m'.returned) (h : Ran m f) : Ran m' f := by
  cases f with
  | waitLoop ids => exact fun id hid => hr id (h id hid)
  | markDone worker task node | release worker task succs | addExtra task | sub task => exact hf _ h
  | _ => trivial

theorem ran_step (h : Step (code S) c f x c') (hi : ∀ g ∈ c.frames, Ran c.mem g) : ∀ g ∈ c'.frames, Ran c'.mem g := by
  have hk := hi f h.mem_frame
  obtain ⟨_, hf, hr⟩ := records_step h
  refine h.all hi (fun fs he g hg => ?_) fun g _ hg => hg.mono hf hr
  have ha := acts_of_code he
  generalize c.mem = m, c'.mem = m' at ha hk ⊢
  clear h he hi hf hr
  cases ha with
  | hasDeps cur parent node hd =>
    obtain ⟨p, _, rfl⟩ := List.mem_map.mp hg
    trivial
  | _ =>
    simp at hg
    try rcases hg with rfl | rfl | rfl
    all_goals simp_all [Ran, Shared.handIn, Shared.spawn, Shared.setNode]

theorem subbed_step (h : Step (code S) c f x c') (hg : counted c f) (hk : Ran c.mem f)
    (hi : ∀ id ∈ c.mem.subbed, id ∈ c.mem.added ∧ id ∈ c.mem.finished) :
    ∀ id ∈ c'.mem.subbed, id ∈ c'.mem.added ∧ id ∈ c'.mem.finished := by
  obtain ⟨hadd, hfin, _⟩ := records_step h
  have hmono : ∀ id, id ∈ c.mem.added ∧ id ∈ c.mem.finished → id ∈ c'.mem.added ∧ id ∈ c'.mem.finished :=
    fun id hid => ⟨hadd id hid.1, hfin id hid.2⟩
  obtain ⟨fs, he⟩ := h.runs_code
  have ha := acts_of_code he
  obtain ⟨m, threads⟩ := c
  generalize c'.mem = m' at ha hmono ⊢
  clear h he hadd hfin
  cases ha with
  | sub task =>
    intro id hid
    rcases List.mem_cons.mp hid with rfl | hid
    · exact ⟨hg, hk⟩
    · exact hi id hid
  | _ => exact fun id hid => hmono id (hi id hid)

/-- A task handed to `enqueue_` stays in the hands of that call until it is counted. -/
theorem uncounted_step (h : Step (code S) c f x c') {task : Task} (ht : uncounted f = some task) :
    (∃ g ∈ c'.frames, uncounted g = some task) ∨ task.id ∈ c'.mem.added := by
  obtain ⟨fs, he⟩ := h.runs_code
  suffices hs : (∃ g ∈ fs, uncounted g = some task) ∨ task.id ∈ c'.mem.added by
    refine hs.imp_left ?_
    rintro ⟨g, hg, hu⟩
    exact ⟨g, h.mem_of_new he hg, hu⟩
  have ha := acts_of_code he
  generalize c.mem = m, c'.mem = m' at ha ⊢
  clear h he
  cases ha <;> simp_all [uncounted]

/-- A new record in `spawned` comes with its `enqueue_` call. -/
theorem spawned_new (h : Step (code S) c f x c') {p : ℕ × ℕ} (hp : p ∈ c'.mem.spawned) : p ∈ c.mem.spawned ∨
    ∃ g ∈ c'.frames, ∃ task, uncounted g = some task ∧ task.id = p.2 ∧ task.parent = some p.1 := by
  obtain ⟨fs, he⟩ := h.runs_code
  suffices hs : p ∈ c.mem.spawned ∨ ∃ g ∈ fs, ∃ task, uncounted g = some task ∧ task.id = p.2 ∧ task.parent = some p.1 by
    refine hs.imp_right ?_
    rintro ⟨g, hg, hu⟩
    exact ⟨g, h.mem_of_new he hg, hu⟩
  have ha := acts_of_code he
  generalize c.mem = m, c'.mem = m' at ha hp ⊢
  clear h he
  have hspawn : ∀ {m : Shared} {parent : Option ℕ}, p ∈ (m.spawn parent).spawned →
      p ∈ m.spawned ∨ parent = some p.1 ∧ m.nextId = p.2 := by
    intro m parent hp
    cases parent with
    | none => exact .inl hp
    | some q =>
      rcases List.mem_cons.mp hp with rfl | hp
      · exact .inr ⟨rfl, rfl⟩
      · exact .inl hp
  cases ha with
  | callEnqueue cur parent kind workerId | noDeps cur parent node hd =>
    exact (hspawn hp).imp_right fun hq => ⟨_, List.mem_cons_self, _, rfl, hq.2, hq.1⟩
  | suspendNode worker task node hk | releaseLast worker task succ rest hd =>
    exact (hspawn hp).imp_right fun hq => ⟨_, List.mem_cons_self, _, rfl, hq.2, hq.1⟩
  | _ => exact .inl hp

theorem spawned_step (h : Step (code S) c f x c') (hi : ∀ p ∈ c.mem.spawned, p.2 ∈ c.mem.added ∨
      ∃ g ∈ c.frames, ∃ task, uncounted g = some task ∧ task.id = p.2 ∧ task.parent = some p.1) :
    ∀ p ∈ c'.mem.spawned, p.2 ∈ c'.mem.added ∨
      ∃ g ∈ c'.frames, ∃ task, uncounted g = some task ∧ task.id = p.2 ∧ task.parent = some p.1 := by
  intro p hp
  rcases spawned_new h hp with hp | hnew
  · rcases hi p hp with hadd | ⟨g, hg, task, hu, hid, hpar⟩
    · exact .inl ((records_step h).1 _ hadd)
    · by_cases hgf : g = f
      · rcases uncounted_step h (hgf ▸ hu) with ⟨g', hg', hu'⟩ | hadd
        · exact .inr ⟨g', hg', task, hu', hid, hpar⟩
        · exact .inl (hid ▸ hadd)
      · exact .inr ⟨g, h.mem_of_ne hg hgf, task, hu, hid, hpar⟩
  · exact .inr hnew

/-- What a task's body calls runs above the task. -/
theorem nested_step (h : Step (code S) c f x c') (hi : ∀ k ∈ c.threads, Config.Served parent? runs? none k) :
    ∀ k ∈ c'.threads, Config.Served parent? runs? none k := by
  refine h.served hi fun fs he => ?_
  have ha := acts_of_code he
  generalize c.mem = m, c'.mem = m' at ha
  clear h he hi
  cases ha with
  | hasDeps cur parent node hd =>
    refine served_of_forall fun g hg p hp => ?_
    obtain ⟨q, _, rfl⟩ := List.mem_map.mp hg
    exact hp
  | _ => simp [Config.Served, parent?, uncounted, runs?, *]

/-- An `enqueue_` call returns after its task is counted. -/
theorem returning_step (h : Step (code S) c f x c')
    (hi : ∀ k ∈ c.threads, Config.Served (fun f => (uncounted f).map (·.id)) returns? none k) :
    ∀ k ∈ c'.threads, Config.Served (fun f => (uncounted f).map (·.id)) returns? none k := by
  refine h.served hi fun fs he => ?_
  have ha := acts_of_code he
  generalize c.mem = m, c'.mem = m' at ha
  clear h he hi
  cases ha with
  | hasDeps cur parent node hd =>
    refine served_of_forall fun g hg p hp => ?_
    obtain ⟨q, _, rfl⟩ := List.mem_map.mp hg
    cases hp
  | _ => simp [Config.Served, uncounted, returns?, *]

theorem counts_start : Counts (start S numDeps programs) := by
  refine ⟨fun id => ?_, fun id => ?_, fun id => ?_, rfl, by simp [start], fun f hf => ?_, by simp [start],
    fun k hk => ?_, fun k hk => ?_⟩
  · rw [total_start (fun _ => rfl) fun _ => rfl]
    rfl
  · rw [total_start (fun _ => rfl) fun _ => rfl]
    rfl
  · rw [total_start (fun _ => rfl) fun _ => rfl]
    rfl
  · rcases frame_start hf with ⟨worker, _, rfl⟩ | ⟨p, _, call, _, rfl⟩ <;> trivial
  all_goals
    refine served_of_forall fun f hf p hp => ?_
    rcases frame_start (List.mem_flatten.mpr ⟨k, hk, hf⟩) with ⟨worker, _, rfl⟩ | ⟨_, _, call, _, rfl⟩ <;> exact hp

theorem counts_step (h : Step (code S) c f x c') (hg : counted c f) (hi : Counts c) : Counts c' :=
  ⟨fun _ => held_step h (hi.atOnePlace _), fun _ => toCount_step h (hi.countedOnce _), fun _ => toReturn_step h (hi.returnedOnce _),
    remaining_step h hi.remaining, subbed_step h hg (hi.ran f h.mem_frame) hi.subbed, ran_step h hi.ran,
    spawned_step h hi.spawned, nested_step h hi.nested, returning_step h hi.returning⟩

theorem counts_reaches (h : Reaches (code S) counted (start S numDeps programs) c) : Counts c := by
  induction h with
  | refl => exact counts_start
  | step _ hg hs ih => exact counts_step hs hg ih

theorem given_le_one (m : Shared) (id : ℕ) : given m id ≤ 1 := List.nodup_iff_count_le_one.mp List.nodup_range id

theorem held_pos_of_runs {id : ℕ} (h : runs? f = some id) : 0 < held id f := by
  cases f <;> simp_all [runs?, held, heldIds]

theorem Counts.subbed_nodup (hi : Counts c) : c.mem.subbed.Nodup := by
  refine List.nodup_iff_count_le_one.mpr fun id => ?_
  have hh := hi.atOnePlace id
  have hg := given_le_one c.mem id
  simp only [settled] at hh
  omega

/-- A discounted task runs nothing any more, so what it made has been counted. -/
theorem Counts.child_added (hi : Counts c) {p : ℕ × ℕ} (hp : p ∈ c.mem.spawned) (hs : p.1 ∈ c.mem.subbed) :
    p.2 ∈ c.mem.added := by
  refine (hi.spawned p hp).resolve_right ?_
  rintro ⟨f, hf, task, hu, _, hpar⟩
  have hpf : parent? f = some p.1 := by cases f <;> simp_all [parent?, uncounted]
  obtain ⟨g, hg, hr⟩ := job_of_owner hi.nested hf hpf
  have hle := (held_pos_of_runs hr).trans_le (le_total (held p.1) hg)
  have hh := hi.atOnePlace p.1
  have hgl := given_le_one c.mem p.1
  have hc := List.count_pos_iff.mpr hs
  simp only [settled] at hh
  omega

/-- A call that has returned has counted its task. -/
theorem Counts.returned_added (hi : Counts c) {id : ℕ} (hr : id ∈ c.mem.returned) : id ∈ c.mem.added := by
  have hc := List.count_pos_iff.mpr hr
  have hgl := given_le_one c.mem id
  have hret := hi.returnedOnce id
  have hcount := hi.countedOnce id
  by_contra hn
  have hz := List.count_eq_zero.mpr hn
  obtain ⟨f, hf, hpos⟩ := total_pos.mp (show 0 < c.total (toCount id) by omega)
  have hid : (uncounted f).map (·.id) = some id := by
    cases hu : uncounted f with
    | none => simp [toCount, hu] at hpos
    | some task =>
      have : task.id = id := by
        by_contra hne
        simp [toCount, hu, hne] at hpos
      simp [this]
  obtain ⟨g, hg, hj⟩ := job_of_owner hi.returning hf hid
  have hle := le_total (toReturn id) hg
  obtain rfl : g = .returned id := by cases g <;> simp_all [returns?]
  simp [toReturn] at hle
  omega

/-- The tasks in `ids` and all that they made, and so on. -/
inductive MadeBy (spawned : List (ℕ × ℕ)) (ids : List ℕ) : ℕ → Prop
  | root {id : ℕ} (h : id ∈ ids) : MadeBy spawned ids id
  | child {p : ℕ × ℕ} (h : MadeBy spawned ids p.1) (hp : p ∈ spawned) : MadeBy spawned ids p.2

/-- In every run whose workers discount only counted tasks, the counter never goes below zero, and
a `wait` that sees it at zero finds all tasks finished whose calls had returned before the `wait`,
and all that these tasks made. -/
theorem wait_exit (h : Reaches (code S) counted (start S numDeps programs) c) :
    0 ≤ c.mem.remainingJobs ∧ ∀ ids, .waitLoop ids ∈ c.frames → c.mem.remainingJobs = 0 →
      ∀ id, MadeBy c.mem.spawned ids id → id ∈ c.mem.finished := by
  have hi := counts_reaches h
  have hsub : c.mem.subbed ⊆ c.mem.added := fun id hid => (hi.subbed id hid).1
  have hperm := hi.subbed_nodup.subperm hsub
  have hle := hperm.length_le
  have hr := hi.remaining
  refine ⟨by omega, fun ids hw hz id hm => ?_⟩
  have hall : ∀ id ∈ c.mem.added, id ∈ c.mem.subbed := fun id hid =>
    (hperm.perm_of_length_le (by omega)).mem_iff.mpr hid
  have hids : ∀ id ∈ ids, id ∈ c.mem.returned := hi.ran _ hw
  suffices hs : id ∈ c.mem.subbed from (hi.subbed id hs).2
  induction hm with
  | root hid => exact hall _ (hi.returned_added (hids _ hid))
  | child _ hp ih => exact hall _ (hi.child_added hp ih)

/-- The worker runs and discounts the task before the enqueuing thread has counted it. -/
theorem remainingJobs_negative : ¬ ∀ c, Reaches (code oneWorker) free
    (start oneWorker (fun _ => 0) [[.enqueue .normalFn none]]) c → 0 ≤ c.mem.remainingJobs := by
  intro h
  have he : (runs (code oneWorker) free (start oneWorker (fun _ => 0) [[.enqueue .normalFn none]])
      [(1, .full), (1, .full), (1, .pick 0), (0, .full), (0, .full), (0, .pick 0), (0, .full), (0, .finish true),
        (0, .full)]).map (·.mem.remainingJobs) = some (-1) := rfl
  obtain ⟨c, hc, he⟩ := Option.map_eq_some_iff.mp he
  have hn := h c (reaches_of_runs hc)
  rw [he] at hn
  exact absurd hn (by decide)

/-- The same task counted in time: `wait` returns after it has finished. -/
theorem wait_exit_oneWorker : ∃ c, Reaches (code oneWorker) counted
    (start oneWorker (fun _ => 0) [[.enqueue .normalFn none, .wait]]) c ∧ 0 ∈ c.mem.finished := by
  have he : (runs (code oneWorker) counted (start oneWorker (fun _ => 0) [[.enqueue .normalFn none, .wait]])
      [(1, .full), (1, .full), (1, .pick 0), (1, .full), (1, .full), (1, .full), (1, .full), (1, .full), (1, .full),
        (1, .full), (0, .full), (0, .full), (0, .pick 0), (0, .full), (0, .finish true), (0, .full)]).map
        (fun c => (c.mem.remainingJobs, c.threads)) = some (0, [[.workerLoop 0], [.waitLoop [0]]]) := rfl
  obtain ⟨c, hc, he⟩ := Option.map_eq_some_iff.mp he
  simp only [Prod.mk.injEq] at he
  have hw : .waitLoop [0] ∈ c.frames := by simp [Config.frames, he.2]
  exact ⟨c, reaches_of_runs hc, (wait_exit (reaches_of_runs hc)).2 [0] hw he.1 0 (.root (by simp))⟩

end Zpc.AsyncScheduler
