import Zpc.AsyncResourceLeases

/-!
# The life of a payload

A payload is destroyed by the release of a last lease, by the step of a maintenance that retires the entry, or by the
collection of retired entries, in any case once. As long as no lease is taken on a retired entry and a release that
finds its entry retired finds no newer lease, no payload is destroyed while a lease on it is held.
-/
namespace Zpc.AsyncResourceManager
open Interleaving

variable {body : ℕ → List AsyncRuntime.Call} {workerCount : ℕ} {programs : List (List Call)}
  {c c' : Config Manager Frame} {m m' : Manager} {f : Frame} {x : Choice} {fs : List Frame} {r : ℕ}

/-- A lease is counted only before its entry is retired, and a release of the last lease that then finds the entry
retired finds it without leases still. -/
def leasesBeforeRetirement : Guard Manager Frame
  | c, .acquireCount r => (c.mem.entry r).retired = false
  | c, .releaseRetired r => (c.mem.entry r).retired = true → (c.mem.entry r).leaseCount = 0
  | _, _ => True

instance (c : Config Manager Frame) (f : Frame) : Decidable (leasesBeforeRetirement c f) := by
  unfold leasesBeforeRetirement
  split <;> infer_instance

/-- The payload is still there, or it has been handed to `destroy`. -/
def Entry.Kept (e : Entry) : Prop :=
  e.payload = e.registered ∧ e.destroyed = [] ∨
    e.payload = none ∧ e.callbacks.destroy = true ∧ e.registered.isSome ∧ e.destroyed = e.registered.toList

/-- There is nothing to destroy. -/
def Entry.Empty (e : Entry) : Prop := e.payload = none ∨ e.callbacks.destroy = false

def Entry.Over (e : Entry) : Prop := e.retired = true ∧ e.leaseCount = 0

/-- What holds where a payload is about to be destroyed. -/
def Due (m : Manager) : Frame → Prop
  | .releaseBusy r | .destroy r | .collectBusy r _ _ | .collectDestroy r _ _ => (m.entry r).Over
  | .collectLeases r _ _ => (m.entry r).retired = true
  | .collectErase r _ _ => (m.entry r).Empty
  | .clearFlag _ work .completed => work.request.retireOnSuccess = true → (m.entry work.resource).retired = true
  | .loadIdle _ work => (m.entry work.resource).retired = true
  | _ => True

theorem Entry.Kept.destroyPayloadIfNeeded {e : Entry} (h : e.Kept) : e.destroyPayloadIfNeeded.Kept := by
  unfold Entry.destroyPayloadIfNeeded
  split
  · rename_i payload hp
    split
    · rename_i hd
      rcases h with ⟨hr, hn⟩ | ⟨hn, _⟩
      · exact .inr ⟨rfl, hd, by simp [← hr, hp], by simp [← hr, hp, hn]⟩
      · rw [hp] at hn
        cases hn
    · exact h
  · exact h

theorem Entry.destroyPayloadIfNeeded_empty (e : Entry) : e.destroyPayloadIfNeeded.Empty := by
  unfold Entry.destroyPayloadIfNeeded
  split
  · split
    · exact .inl rfl
    · rename_i hd
      exact .inr (by simpa using hd)
  · rename_i hp
    exact .inl hp

theorem Acts.kept (ha : Acts body m f m' fs) (hi : (m.entry r).Kept) : (m'.entry r).Kept := by
  rcases ha.entry_eq r with h | h
  · rwa [h]
  · generalize m'.entry r = e at h
    cases h with
    | register descriptor callbacks payload hr => exact .inl ⟨rfl, rfl⟩
    | destroy | collect resources removed => exact hi.destroyPayloadIfNeeded
    | _ => exact hi

/-- What stays true of an entry once it is registered. -/
structure Lasting (m m' : Manager) (r : ℕ) : Prop where
  retired : (m.entry r).retired = true → (m'.entry r).retired = true
  empty : (m.entry r).Empty → (m'.entry r).Empty
  isOver : (m.entry r).Over → (m'.entry r).Over

theorem Acts.lasting (ha : Acts body m f m' fs) (hr : r ≤ m.nextId)
    (hg : f = .acquireCount r → (m.entry r).retired = false) : Lasting m m' r := by
  rcases ha.entry_eq r with h | h
  · exact ⟨by simp [h], by simp [h], by simp [h]⟩
  · generalize hm : m'.entry r = e at h
    cases h with
    | register descriptor callbacks payload hn => omega
    | acquire =>
      refine ⟨by simp [hm], by simp [hm, Entry.Empty], fun ho => ?_⟩
      have hr := ho.1
      rw [hg rfl] at hr
      cases hr
    | release =>
      refine ⟨by simp [hm], by simp [hm, Entry.Empty], fun ho => ?_⟩
      rw [hm]
      exact ⟨ho.1, by simp [ho.2]⟩
    | destroy | collect resources removed =>
      refine ⟨by simp [hm], fun he => ?_, by simp [hm, Entry.Over]⟩
      rw [hm]
      exact Entry.destroyPayloadIfNeeded_empty _
    | retire id work hw => exact ⟨by simp [hm], by simp [hm, Entry.Empty], by simp [hm, Entry.Over]⟩
    | _ => exact ⟨by simp [hm], by simp [hm, Entry.Empty], by simp [hm, Entry.Over]⟩

theorem Due.mono {g : Frame} (h : Due m g) (hl : ∀ r, 0 < refers r g → Lasting m m' r) : Due m' g := by
  cases g with
  | releaseBusy r | destroy r => exact (hl r (by simp [refers])).isOver h
  | collectBusy r resources removed | collectDestroy r resources removed => exact (hl r (by simp [refers])).isOver h
  | collectLeases r resources removed => exact (hl r (by simp [refers])).retired h
  | collectErase r resources removed => exact (hl r (by simp [refers])).empty h
  | clearFlag id work result =>
    cases result with
    | completed => exact fun hr => (hl work.resource (by simp [refers])).retired (h hr)
    | _ => trivial
  | loadIdle id work => exact (hl work.resource (by simp [refers])).retired h
  | _ => trivial

structure Lives (c : Config Manager Frame) : Prop where
  due : ∀ f ∈ c.frames, Due c.mem f
  kept : ∀ r, (c.mem.entry r).Kept
  isOver : ∀ r, (c.mem.entry r).destroyed ≠ [] → (c.mem.entry r).Over
  collected : ∀ r, c.mem.collected r = true → r ≤ c.mem.nextId ∧ (c.mem.entry r).Empty

theorem Leases.le_next (hi : Leases c) (hf : f ∈ c.frames) (hr : 0 < refers r f) : r ≤ c.mem.nextId := by
  by_contra hlt
  have hle := le_total (refers r) hf
  rw [(hi.unregistered r (by omega)).frames] at hle
  omega

theorem leasesBeforeRetirement_acquire (hg : leasesBeforeRetirement c f) :
    f = .acquireCount r → (c.mem.entry r).retired = false := by
  rintro rfl
  exact hg

theorem due_step (h : Step (code body) c f x c') (hg : leasesBeforeRetirement c f) (hl : Leases c)
    (hi : ∀ f ∈ c.frames, Due c.mem f) : ∀ f ∈ c'.frames, Due c'.mem f := by
  refine h.all hi (fun fs he => ?_) fun g hb hd => ?_
  · have hdue := hi f h.mem_frame
    have ha := acts_of_code he
    clear he h
    generalize c'.mem = m' at ha ⊢
    cases ha with
    | runtime frame runtime' fs ha hw =>
      intro g hg
      obtain ⟨frame', _, rfl⟩ := List.mem_map.mp hg
      trivial
    | submit s scheduledEpoch executor fs ha =>
      intro g hg
      rcases List.mem_append.mp hg with hg | hg
      · obtain ⟨frame', _, rfl⟩ := List.mem_map.mp hg
        trivial
      · obtain rfl := List.mem_singleton.mp hg
        trivial
    | releaseRetired r hr => exact List.forall_mem_singleton.mpr ⟨hr, hg hr⟩
    | unsuccessful id work result hc hs =>
      refine List.forall_mem_singleton.mpr ?_
      cases result with
      | completed => exact absurd rfl hc
      | _ => trivial
    | accessKeep id work hr =>
      refine List.forall_mem_singleton.mpr fun ht => ?_
      rw [hr] at ht
      cases ht
    | retire id work => exact List.forall_mem_singleton.mpr fun _ => by simp [Manager.update]
    | clearRetired id work hr => exact List.forall_mem_singleton.mpr (by simpa [Due, Manager.update] using hdue hr)
    | idle id work hz => exact List.forall_mem_cons.mpr ⟨⟨hdue, hz⟩, List.forall_mem_singleton.mpr trivial⟩
    | collect r resources removed hr => exact List.forall_mem_singleton.mpr hr
    | collectLeases r resources removed hz => exact List.forall_mem_singleton.mpr ⟨hdue, hz⟩
    | releaseIdle r | collectIdle r resources removed => exact List.forall_mem_singleton.mpr hdue
    | collectDestroy r resources removed =>
      refine List.forall_mem_singleton.mpr ?_
      simpa [Due, Manager.update] using Entry.destroyPayloadIfNeeded_empty _
    | _ => first | exact List.forall_mem_nil _ | exact List.forall_mem_singleton.mpr trivial | simp [Due]
  · obtain ⟨fs, he⟩ := h.runs_code
    exact hd.mono fun r hr => (acts_of_code he).lasting (hl.le_next hb.mem hr) (leasesBeforeRetirement_acquire hg)

/-- A payload is destroyed only once its entry is over, and so it stays. -/
theorem over_step (h : Step (code body) c f x c') (hg : leasesBeforeRetirement c f) (hl : Leases c) (hi : Lives c)
    (hd : (c'.mem.entry r).destroyed ≠ []) : (c'.mem.entry r).Over := by
  obtain ⟨fs, he⟩ := h.runs_code
  have ha := acts_of_code he
  have hdue := hi.due f h.mem_frame
  have hlasting : (c.mem.entry r).destroyed ≠ [] → Lasting c.mem c'.mem r := fun hd => by
    refine ha.lasting (not_lt.mp fun hlt => hd ?_) (leasesBeforeRetirement_acquire hg)
    rw [(hl.unregistered r hlt).entry]
  rcases ha.entry_eq r with hr | hr
  · rw [hr] at hd ⊢
    exact hi.isOver r hd
  · have hold := fun hd => (hlasting hd).isOver (hi.isOver r hd)
    generalize c'.mem.entry r = e at hd hr hold ⊢
    cases hr with
    | register descriptor callbacks payload hr => exact absurd rfl hd
    | destroy | collect resources removed => exact ⟨by simpa using hdue.1, by simpa using hdue.2⟩
    | _ => exact hold hd

theorem collected_step (h : Step (code body) c f x c') (hg : leasesBeforeRetirement c f) (hl : Leases c)
    (hi : Lives c) (hc : c'.mem.collected r = true) : r ≤ c'.mem.nextId ∧ (c'.mem.entry r).Empty := by
  obtain ⟨fs, he⟩ := h.runs_code
  have ha := acts_of_code he
  have hold : r ≤ c.mem.nextId → (c.mem.entry r).Empty → r ≤ c'.mem.nextId ∧ (c'.mem.entry r).Empty := fun hr he =>
    ⟨hr.trans ha.nextId_le, (ha.lasting hr (leasesBeforeRetirement_acquire hg)).empty he⟩
  by_cases hr : c.mem.collected r = true
  · exact hold (hi.collected r hr).1 (hi.collected r hr).2
  · obtain ⟨resources, removed, rfl⟩ : ∃ resources removed, f = .collectErase r resources removed := by
      generalize c.mem = m, c'.mem = m' at ha hc hr
      cases ha with
      | collectErase r' resources removed =>
        by_cases hr' : r = r'
        · exact ⟨resources, removed, by rw [hr']⟩
        · exact absurd (by simpa [hr'] using hc) hr
      | _ => exact absurd hc hr
    exact hold (hl.le_next h.mem_frame (by simp [refers])) (hi.due _ h.mem_frame)

theorem lives_start : Lives (start workerCount programs) where
  due f hf := by
    rcases frame_start hf with rfl | ⟨call, rfl⟩ <;> trivial
  kept _ := .inl ⟨rfl, rfl⟩
  isOver _ hd := absurd rfl hd
  collected := nofun

theorem lives_step (h : Step (code body) c f x c') (hg : leasesBeforeRetirement c f) (hl : Leases c) (hi : Lives c) :
    Lives c' := by
  obtain ⟨fs, he⟩ := h.runs_code
  exact ⟨due_step h hg hl hi.due, fun r => (acts_of_code he).kept (hi.kept r), fun r => over_step h hg hl hi,
    fun r => collected_step h hg hl hi⟩

theorem lives_reaches (h : Reaches (code body) leasesBeforeRetirement (start workerCount programs) c) : Lives c := by
  induction h with
  | refl => exact lives_start
  | step hr hg hs ih => exact lives_step hs hg (leases_reaches hr) ih

/-- In every run whose leases are all counted before retirement, a payload is destroyed only when no lease is held, at
most once, and once its entry is collected, if there was a payload and a callback to destroy it. -/
theorem payload_outlives_leases (h : Reaches (code body) leasesBeforeRetirement (start workerCount programs) c) (r : ℕ) :
    (0 < c.mem.held r → (c.mem.entry r).destroyed = []) ∧ (c.mem.entry r).destroyed.length ≤ 1 ∧
      (c.mem.collected r = true → (c.mem.entry r).callbacks.destroy = true →
        (c.mem.entry r).destroyed = (c.mem.entry r).registered.toList) := by
  have hi := lives_reaches h
  refine ⟨fun hh => ?_, ?_, fun hc hd => ?_⟩
  · by_contra hd
    have hz := (hi.isOver r hd).2
    have hcount := (leases_reaches h).counted r
    omega
  · rcases hi.kept r with ⟨_, hn⟩ | ⟨_, _, _, hn⟩
    · simp [hn]
    · rw [hn]
      cases (c.mem.entry r).registered <;> simp
  · rcases hi.kept r with ⟨hp, hn⟩ | ⟨_, _, _, hn⟩
    · rcases (hi.collected r hc).2 with he | he
      · rw [hn, ← hp, he]
        rfl
      · rw [hd] at he
        cases he
    · exact hn

/-- One thread acquires a lease of the entry that another retires. -/
def leaseDuringRetirement : List (List Call) :=
  [[.register {} {maintain := true, destroy := true} (some 7), .acquire 1],
    [.scheduleMaintenance {resource := 1, request := {retireOnSuccess := true}}]]

/-- The acquire finds the entry not retired, the maintenance retires it and finds no lease, the lease is returned, and
the payload is destroyed. -/
theorem payload_destroyed_while_leased :
    ¬ ∀ c, Reaches (code fun _ => []) free (start 1 leaseDuringRetirement) c → ∀ r,
      (0 < c.mem.held r → (c.mem.entry r).destroyed = []) ∧ (c.mem.entry r).destroyed.length ≤ 1 ∧
        (c.mem.collected r = true → (c.mem.entry r).callbacks.destroy = true →
          (c.mem.entry r).destroyed = (c.mem.entry r).registered.toList) := by
  intro h
  have he : (runs (code fun _ => []) free (start 1 leaseDuringRetirement)
      (.flatten [.replicate 4 (1, .runtime .full), .replicate 13 (2, .runtime .full), [(2, .finish .completed)],
        .replicate 6 (2, .runtime .full), .replicate 4 (1, .runtime .full), [(2, .runtime .full)]])).map
        (fun c => (c.mem.held 1, (c.mem.entry 1).destroyed)) = some (1, [7]) := rfl
  obtain ⟨c, hc, he⟩ := Option.map_eq_some_iff.mp he
  simp only [Prod.mk.injEq] at he
  obtain ⟨hheld, hd⟩ := he
  have hn := (h c (reaches_of_runs hc) 1).1 (by omega)
  rw [hd] at hn
  cases hn

/-- A lease is taken and released, then a maintenance retires the entry, which is collected. -/
theorem payload_destroyed_after_lease : ∃ c, Reaches (code fun _ => []) leasesBeforeRetirement
    (start 1 [[.register {} {maintain := true, destroy := true} (some 7), .acquire 1, .release 1,
      .scheduleMaintenance {resource := 1, request := {retireOnSuccess := true}}, .collectRetired]]) c ∧
    c.mem.collected 1 = true ∧ (c.mem.entry 1).destroyed = [7] := by
  have he : (runs (code fun _ => []) leasesBeforeRetirement
      (start 1 [[.register {} {maintain := true, destroy := true} (some 7), .acquire 1, .release 1,
        .scheduleMaintenance {resource := 1, request := {retireOnSuccess := true}}, .collectRetired]])
      (.flatten [.replicate 24 (1, .runtime .full), [(1, .finish .completed)], .replicate 13 (1, .runtime .full),
        [(1, .order [1])], .replicate 6 (1, .runtime .full)])).map
        (fun c => (c.mem.collected 1, (c.mem.entry 1).callbacks.destroy, (c.mem.entry 1).registered)) =
      some (true, true, some 7) := rfl
  obtain ⟨c, hc, he⟩ := Option.map_eq_some_iff.mp he
  simp only [Prod.mk.injEq] at he
  obtain ⟨hcollected, hdestroy, hregistered⟩ := he
  refine ⟨c, reaches_of_runs hc, hcollected, ?_⟩
  rw [(payload_outlives_leases (reaches_of_runs hc) 1).2.2 hcollected hdestroy, hregistered]
  rfl

end Zpc.AsyncResourceManager
