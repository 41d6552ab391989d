import Zpc.AsyncResourceLeases

/-!
# The epoch of the last access

An access stores the epoch it has loaded, and a maintenance the epoch it was scheduled in. As long as no access of a
later epoch comes between, the epoch of the last access never decreases.
-/
namespace Zpc.AsyncResourceManager
open Interleaving

variable {body : ℕ → List AsyncRuntime.Call} {workerCount : ℕ} {programs : List (List Call)}
  {c c' : Config Manager Frame} {m m' : Manager} {f g : Frame} {x : Choice} {fs : List Frame} {r e : ℕ}

/-- The entry and the epoch that a frame has captured and is to store, unless the maintenance fails. -/
def captured : Frame → Option (ℕ × ℕ)
  | .storeAccess r e => some (r, e)
  | .loadLeases _ work _ | .maintain _ work _ _ | .maintained _ work .completed | .clearDirty _ work
  | .recordAccess _ work => some (work.resource, work.scheduledEpoch)
  | _ => none

/-- No maintenance starts its step after its entry was accessed in a later epoch than it was scheduled in, and no
access or maintenance stores an epoch while one with an earlier epoch for the entry has still to store. -/
def storesInOrder : Guard Manager Frame := fun c f => match f with
  | .runtime (.step id) => ∀ work ∈ c.mem.maintenance id,
      (c.mem.entry work.resource).lastAccessEpoch ≤ work.scheduledEpoch
  | .storeAccess r e => ∀ g ∈ c.frames, ∀ p ∈ captured g, p.1 = r → e ≤ p.2
  | .recordAccess _ work => ∀ g ∈ c.frames, ∀ p ∈ captured g, p.1 = work.resource → work.scheduledEpoch ≤ p.2
  | _ => True

instance (c : Config Manager Frame) (f : Frame) : Decidable (storesInOrder c f) := by
  unfold storesInOrder
  split <;> infer_instance

def stores : Frame → Option (ℕ × ℕ)
  | .storeAccess r e => some (r, e)
  | .recordAccess _ work => some (work.resource, work.scheduledEpoch)
  | _ => none

theorem Acts.epoch_le (ha : Acts body m f m' fs) : m.epoch ≤ m'.epoch := by
  cases ha with
  | advanceEpoch delta => exact Nat.le_add_right _ _
  | _ => exact le_rfl

theorem Entry.destroyPayloadIfNeeded_lastAccessEpoch (e : Entry) :
    e.destroyPayloadIfNeeded.lastAccessEpoch = e.lastAccessEpoch := by
  rw [destroyPayloadIfNeeded]
  split
  · split <;> rfl
  · rfl

theorem update_lastAccessEpoch {r' : ℕ} {g : Entry → Entry} (h : (g (m.entry r')).lastAccessEpoch = (m.entry r').lastAccessEpoch) :
    ((m.update r' g).entry r).lastAccessEpoch = (m.entry r).lastAccessEpoch := by
  by_cases hr : r = r'
  · subst hr
    simpa [Manager.update] using h
  · simp [Manager.update, hr]

/-- What an action does to the epoch of the last access. -/
theorem Acts.access (ha : Acts body m f m' fs) (r : ℕ) :
    (m'.entry r).lastAccessEpoch = (m.entry r).lastAccessEpoch ∨
      stores f = some (r, (m'.entry r).lastAccessEpoch) ∨
      r = m.nextId + 1 ∧ (m'.entry r).lastAccessEpoch = m.epoch ∧ fs = [.insert r] := by
  cases ha with
  | register descriptor callbacks payload =>
    by_cases hr : r = m.nextId + 1
    · subst hr
      exact .inr (.inr ⟨rfl, by simp [Manager.make], rfl⟩)
    · exact .inl (by simp [Manager.make, hr])
  | storeAccess r' e =>
    by_cases hr : r = r'
    · subst hr
      exact .inr (.inl (by simp [stores, Manager.update]))
    · exact .inl (by simp [Manager.update, hr])
  | accessRetire id work | accessKeep id work hr =>
    by_cases hr : r = work.resource
    · subst hr
      exact .inr (.inl (by simp [stores, Manager.update]))
    · exact .inl (by simp [Manager.update, hr])
  | destroy r' | collectDestroy r' => exact .inl (update_lastAccessEpoch (Entry.destroyPayloadIfNeeded_lastAccessEpoch _))
  | clearRetired id work hr | clearFlag id work result =>
    exact .inl (update_lastAccessEpoch (g := fun e => {e with maintenanceInFlight := false}) rfl)
  | _ => exact .inl (by first | rfl | exact update_lastAccessEpoch rfl)

/-- Where the epoch that a new frame has captured comes from. -/
theorem Acts.captured (ha : Acts body m f m' fs) (hg : g ∈ fs) (hc : captured g = some (r, e)) :
    AsyncResourceManager.captured f = some (r, e) ∨ f = .loadEpoch r ∧ e = m.epoch ∨
      ∃ id work, f = .runtime (.step id) ∧ m.maintenance id = some work ∧ r = work.resource ∧ e = work.scheduledEpoch := by
  cases ha with
  | runtime frame runtime' fs ha hw =>
    obtain ⟨frame', -, rfl⟩ := List.mem_map.mp hg
    cases hc
  | submit s scheduledEpoch executor fs ha =>
    rcases List.mem_append.mp hg with hg | hg
    · obtain ⟨frame', -, rfl⟩ := List.mem_map.mp hg
      cases hc
    · obtain rfl := List.mem_singleton.mp hg
      cases hc
  | step id work payload hw =>
    obtain rfl := List.mem_singleton.mp hg
    obtain ⟨rfl, rfl⟩ := Prod.mk.inj (Option.some.inj hc)
    exact .inr (.inr ⟨id, work, rfl, hw, rfl, rfl⟩)
  | loadEpoch r' =>
    obtain rfl := List.mem_singleton.mp hg
    obtain ⟨rfl, rfl⟩ := Prod.mk.inj (Option.some.inj hc)
    exact .inr (.inl ⟨rfl, rfl⟩)
  | maintain id work payload leaseCount | noMaintain id work payload | completedDirty id work | completed id work
  | clearDirty id work =>
    obtain rfl := List.mem_singleton.mp hg
    exact .inl hc
  | maintainCall id work payload leaseCount call =>
    rcases List.mem_pair.mp hg with rfl | rfl
    · cases hc
    · exact .inl hc
  | maintainFinish id work payload leaseCount result =>
    obtain rfl := List.mem_singleton.mp hg
    cases result with
    | completed => exact .inl hc
    | _ => cases hc
  | _ =>
    exact absurd (hc.symm.trans ((show ∀ g ∈ _, AsyncResourceManager.captured g = none by
      simp [AsyncResourceManager.captured]) g hg)) (Option.some_ne_none _)

theorem Acts.submitting (ha : Acts body m f m' fs) {s : Scheduling} (hg : .submit s e ∈ fs) : e = m.epoch := by
  cases ha with
  | runtime frame runtime' fs ha hw => simp at hg
  | submit s' scheduledEpoch executor fs ha => simp at hg
  | scheduleEpoch s' =>
    obtain ⟨-, rfl⟩ := Frame.submit.inj (List.mem_singleton.mp hg)
    rfl
  | _ => simp at hg

theorem Acts.scheduled (ha : Acts body m f m' fs) {id : ℕ} {work : Maintenance} (hw : m'.maintenance id = some work) :
    m.maintenance id = some work ∨ ∃ s, f = .submit s work.scheduledEpoch := by
  cases ha with
  | submit s scheduledEpoch executor fs ha =>
    by_cases hid : id = m.runtime.nextSubmissionId + 1
    · simp only [hid, Function.update_self, Option.some.injEq] at hw
      subst hw
      exact .inr ⟨s, rfl⟩
    · exact .inl (by simpa [hid] using hw)
  | _ => exact .inl hw

/-- Nothing is stored that is below the epoch of the last access or above the epoch of the manager. -/
structure Epochs (c : Config Manager Frame) : Prop where
  access : ∀ r, (c.mem.entry r).lastAccessEpoch ≤ c.mem.epoch
  captured : ∀ f ∈ c.frames, ∀ p ∈ captured f, (c.mem.entry p.1).lastAccessEpoch ≤ p.2 ∧ p.2 ≤ c.mem.epoch
  submitting : ∀ s e, .submit s e ∈ c.frames → e ≤ c.mem.epoch
  scheduled : ∀ id work, c.mem.maintenance id = some work → work.scheduledEpoch ≤ c.mem.epoch

theorem captured_of_stores {p : ℕ × ℕ} (h : stores f = some p) : captured f = some p := by
  cases f with
  | storeAccess r e => exact h
  | recordAccess id work => exact h
  | _ => cases h

theorem epochs_start : Epochs (start workerCount programs) where
  access r := le_rfl
  captured f hf p hp := by
    obtain rfl | ⟨call, rfl⟩ := frame_start hf <;> cases hp
  submitting s e hf := by
    obtain h | ⟨call, h⟩ := frame_start hf <;> cases h
  scheduled := nofun

/-- The guard: a stored epoch is not above one that is captured for the same entry. -/
theorem stores_le {p q : ℕ × ℕ} (hg : storesInOrder c f) (hs : stores f = some p) (hm : g ∈ c.frames)
    (hc : captured g = some q) (hq : q.1 = p.1) : p.2 ≤ q.2 := by
  cases f with
  | storeAccess r e =>
    obtain rfl := Option.some.inj hs
    exact hg g hm q hc hq
  | recordAccess id work =>
    obtain rfl := Option.some.inj hs
    exact hg g hm q hc hq
  | _ => cases hs

theorem access_le (h : Step (code body) c f x c') (hi : Epochs c) (r : ℕ) :
    (c.mem.entry r).lastAccessEpoch ≤ (c'.mem.entry r).lastAccessEpoch := by
  obtain ⟨fs, he⟩ := h.runs_code
  rcases (acts_of_code he).access r with hsame | hs | ⟨-, hmake, -⟩
  · exact hsame.ge
  · exact (hi.captured f h.mem_frame _ (captured_of_stores hs)).1
  · exact hmake ▸ hi.access r

theorem refers_of_captured {p : ℕ × ℕ} (h : captured f = some p) : refers p.1 f = 1 := by
  cases f with
  | storeAccess r e =>
    obtain rfl := Option.some.inj h
    exact if_pos rfl
  | maintained id work result =>
    cases result with
    | completed =>
      obtain rfl := Option.some.inj h
      exact if_pos rfl
    | _ => cases h
  | loadLeases id work payload | maintain id work payload leaseCount | clearDirty id work | recordAccess id work =>
    obtain rfl := Option.some.inj h
    exact if_pos rfl
  | _ => cases h

/-- A captured epoch stays at or above the epoch of the last access. -/
theorem captured_step (h : Step (code body) c f x c') (hg : storesInOrder c f) (hl : Leases c) (hi : Epochs c)
    {k : Frame} (hk : k ∈ c'.frames) {r e : ℕ} (hp : captured k = some (r, e)) :
    (c'.mem.entry r).lastAccessEpoch ≤ e ∧ e ≤ c.mem.epoch := by
  obtain ⟨fs, he⟩ := h.runs_code
  have ha := acts_of_code he
  rcases h.new_or_old he hk with hk | hk
  · rcases ha.access r with hsame | hs | ⟨-, -, rfl⟩
    · rw [hsame]
      rcases ha.captured hk hp with hf | ⟨-, rfl⟩ | ⟨id, work, rfl, hw, rfl, rfl⟩
      · exact hi.captured f h.mem_frame _ hf
      · exact ⟨hi.access r, le_rfl⟩
      · exact ⟨hg work hw, hi.scheduled id work hw⟩
    · rcases ha.captured hk hp with hf | ⟨rfl, -⟩ | ⟨id, work, rfl, -⟩
      · rw [captured_of_stores hs] at hf
        obtain ⟨-, hv⟩ := Prod.mk.inj (Option.some.inj hf)
        exact ⟨hv.le, hv ▸ (hi.captured f h.mem_frame _ (captured_of_stores hs)).2⟩
      · cases hs
      · cases hs
    · obtain rfl := List.mem_singleton.mp hk
      cases hp
  · obtain ⟨hle, hepoch⟩ := hi.captured k hk.mem _ hp
    refine ⟨?_, hepoch⟩
    rcases ha.access r with hsame | hs | ⟨hr, -, -⟩
    · exact hsame ▸ hle
    · exact stores_le hg hs hk.mem hp rfl
    · have hfresh := (hl.unregistered r (by omega)).frames
      have hone := le_total (refers r) hk.mem
      rw [hfresh, refers_of_captured hp] at hone
      omega

theorem epochs_step (h : Step (code body) c f x c') (hg : storesInOrder c f) (hl : Leases c) (hi : Epochs c) :
    Epochs c' := by
  obtain ⟨fs, he⟩ := h.runs_code
  have ha := acts_of_code he
  have hepoch := ha.epoch_le
  refine ⟨fun r => ?_, fun k hk p hp => ?_, fun s e hs => ?_, fun id work hw => ?_⟩
  · rcases ha.access r with hsame | hs | ⟨-, hmake, -⟩
    · rw [hsame]
      exact (hi.access r).trans hepoch
    · exact (hi.captured f h.mem_frame _ (captured_of_stores hs)).2.trans hepoch
    · rw [hmake]
      exact hepoch
  · obtain ⟨hle, he⟩ := captured_step h hg hl hi hk hp
    exact ⟨hle, he.trans hepoch⟩
  · rcases h.new_or_old he hs with hs | hs
    · exact (ha.submitting hs) ▸ hepoch
    · exact (hi.submitting s e hs.mem).trans hepoch
  · rcases ha.scheduled hw with hw | ⟨s, rfl⟩
    · exact (hi.scheduled id work hw).trans hepoch
    · exact (hi.submitting s _ h.mem_frame).trans hepoch

theorem epochs_reaches (h : Reaches (code body) storesInOrder (start workerCount programs) c) : Epochs c := by
  induction h with
  | refl => exact epochs_start
  | step hr hg hs ih => exact epochs_step hs hg (leases_reaches hr) ih

/-- In every run in which accesses and maintenances store in the order of their epochs, the epoch of the last access
of an entry never decreases. -/
theorem lastAccess_monotone (h : Reaches (code body) storesInOrder (start workerCount programs) c)
    (h' : Reaches (code body) storesInOrder c c') (r : ℕ) :
    (c.mem.entry r).lastAccessEpoch ≤ (c'.mem.entry r).lastAccessEpoch := by
  induction h' with
  | refl => exact le_rfl
  | step hr hg hs ih => exact ih.trans (access_le hs (epochs_reaches (h.trans hr)) r)

/-- A maintenance that waits for the event 0, and a touch in a later epoch before the event is completed. -/
def touchBeforeMaintenance : List (List Call) :=
  [[.register {} {} none, .scheduleMaintenance {resource := 1, prerequisites := [.created 0]},
    .advanceEpoch 1, .touch 1, .runtime (.complete 0 .completed)]]

/-- The maintenance puts back the epoch that it was scheduled in. -/
theorem lastAccess_decreases : ¬ ∀ c c', Reaches (code fun _ => []) free (start 1 touchBeforeMaintenance) c →
    Reaches (code fun _ => []) free c c' → ∀ r, (c.mem.entry r).lastAccessEpoch ≤ (c'.mem.entry r).lastAccessEpoch := by
  intro h
  have he : ((runs (code fun _ => []) free (start 1 touchBeforeMaintenance) (List.replicate 18 (1, .runtime .full))).bind
      fun c => (runs (code fun _ => []) free c (List.replicate 16 (1, .runtime .full))).map
        fun c' => ((c.mem.entry 1).lastAccessEpoch, (c'.mem.entry 1).lastAccessEpoch)) = some (1, 0) := rfl
  obtain ⟨c, hc, he⟩ := Option.bind_eq_some_iff.mp he
  obtain ⟨c', hc', he⟩ := Option.map_eq_some_iff.mp he
  obtain ⟨hlast, hlast'⟩ := Prod.mk.inj he
  have hle := h c c' (reaches_of_runs hc) (reaches_of_runs hc') 1
  rw [hlast, hlast'] at hle
  exact absurd hle (by decide)

/-- A touch in a later epoch, and no maintenance. -/
theorem lastAccess_monotone_touch : ∃ c c', Reaches (code fun _ => []) storesInOrder
      (start 1 [[.register {} {} none, .advanceEpoch 1, .touch 1]]) c ∧
    Reaches (code fun _ => []) storesInOrder c c' ∧
    (c.mem.entry 1).lastAccessEpoch ≤ (c'.mem.entry 1).lastAccessEpoch ∧ (c'.mem.entry 1).lastAccessEpoch = 1 := by
  have he : ((runs (code fun _ => []) storesInOrder (start 1 [[.register {} {} none, .advanceEpoch 1, .touch 1]])
      (List.replicate 3 (1, .runtime .full))).bind
      fun c => (runs (code fun _ => []) storesInOrder c (List.replicate 4 (1, .runtime .full))).map
        fun c' => (c'.mem.entry 1).lastAccessEpoch) = some 1 := rfl
  obtain ⟨c, hc, he⟩ := Option.bind_eq_some_iff.mp he
  obtain ⟨c', hc', he⟩ := Option.map_eq_some_iff.mp he
  exact ⟨c, c', reaches_of_runs hc, reaches_of_runs hc',
    lastAccess_monotone (reaches_of_runs hc) (reaches_of_runs hc') 1, he⟩

end Zpc.AsyncResourceManager
