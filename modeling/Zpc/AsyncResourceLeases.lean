import Zpc.AsyncResourceManager

/-!
# Leases and maintenance

The lease count of an entry is the number of leases held, up to the acquires and releases under way. A maintenance is
scheduled only while the count is zero, unless the entry allows otherwise; as long as no lease is taken from that test
to the end of the maintenance, its callback finds no lease held.
-/
namespace Zpc.AsyncResourceManager
open Interleaving

variable {body : ℕ → List AsyncRuntime.Call} {workerCount : ℕ} {programs : List (List Call)}
  {c c' : Config Manager Frame} {m m' : Manager} {f : Frame} {x : Choice} {fs : List Frame} {r id : ℕ}

/-- The frames that refer to an entry. -/
def refers (r : ℕ) : Frame → ℕ
  | .insert r' | .acquireRetired r' | .acquireCount r' | .acquired r' | .loadEpoch r' | .storeAccess r' _
  | .releaseCount r' | .releaseRetired r' | .releaseBusy r' | .destroy r' | .touchRetired r' | .dirtyRetired r' _
  | .storeDirty r' _ | .abandon r' | .sweepStale r' _ _ | .sweepDirty r' _ => if r' = r then 1 else 0
  | .scheduleRetired s | .scheduleLeases s | .scheduleDirty s | .scheduleExchange s | .scheduleEpoch s | .submit s _ =>
    if s.resource = r then 1 else 0
  | .loadLeases _ work _ | .maintain _ work _ _ | .maintained _ work _ | .clearDirty _ work | .recordAccess _ work
  | .retire _ work | .clearFlag _ work _ | .loadIdle _ work => if work.resource = r then 1 else 0
  | .sweepEpoch resources _ | .sweep resources _ _ | .collect resources _ => resources.count r
  | .collectLeases r' resources _ | .collectBusy r' resources _ | .collectDestroy r' resources _
  | .collectErase r' resources _ => (r' :: resources).count r
  | _ => 0

/-- There is no entry of that number yet. -/
structure Unregistered (c : Config Manager Frame) (r : ℕ) : Prop where
  entry : c.mem.entry r = {}
  absent : r ∉ c.mem.entries
  held : c.mem.held r = 0
  frames : c.total (refers r) = 0
  maintenance : ∀ id work, c.mem.maintenance id = some work → work.resource ≠ r

/-- The leases counted and not held: an acquire about to return, or a release about to discount. -/
def leasing (r : ℕ) : Frame → ℕ
  | .acquired r' | .releaseCount r' => if r' = r then 1 else 0
  | _ => 0

theorem unregistered_step (h : Step (code body) c f x c') (hr : c'.mem.nextId < r) (hu : Unregistered c r) :
    Unregistered c' r := by
  obtain ⟨fs, n, ha, hn, hn'⟩ := h.measure acts_of_code (refers r)
  obtain ⟨hentry, habsent, hheld, hframes, hwork⟩ := hu
  rw [hn, Nat.add_eq_zero_iff] at hframes
  obtain ⟨hf, rfl⟩ := hframes
  generalize hm : c.mem = m, hm' : c'.mem = m' at ha hr hentry habsent hheld hwork
  suffices hs : m'.entry r = {} ∧ r ∉ m'.entries ∧ m'.held r = 0 ∧ (fs.map (refers r)).sum = 0 ∧
      ∀ id work, m'.maintenance id = some work → work.resource ≠ r by
    obtain ⟨h1, h2, h3, h4, h5⟩ := hs
    exact ⟨by rwa [hm'], by rwa [hm'], by rwa [hm'], by rw [hn', h4], by rwa [hm']⟩
  clear h hn hn' hm hm'
  cases ha with
  | runtime frame runtime' fs ha hw =>
    rw [List.map_map, sum_calls (g := refers r) Frame.runtime fun _ => rfl]
    exact ⟨hentry, habsent, hheld, rfl, hwork⟩
  | step id work payload hw => exact ⟨hentry, habsent, hheld, by simp [refers, hwork id work hw], hwork⟩
  | register descriptor callbacks payload =>
    have hne : m.nextId + 1 ≠ r := Nat.ne_of_lt hr
    exact ⟨by simpa [Manager.make, hne.symm] using hentry, habsent, hheld, by simp [refers, hne], hwork⟩
  | acquire r' hr' | touch r' hr' | markDirty r' dirty hr' | schedule s hr' =>
    have hne : _ ≠ r := fun h => habsent (h ▸ hr')
    exact ⟨hentry, habsent, hheld, by simp [refers, hne], hwork⟩
  | release r' hh =>
    have hne : r' ≠ r := fun h => hh (h ▸ hheld)
    exact ⟨hentry, habsent, by simpa [hne.symm] using hheld, by simp [refers, hne], hwork⟩
  | scheduleStale request resources hp =>
    refine ⟨hentry, habsent, hheld, ?_, hwork⟩
    simpa [refers] using List.count_eq_zero.mpr fun h => habsent (hp.mem_iff.mp h)
  | collectRetired resources hp =>
    refine ⟨hentry, habsent, hheld, ?_, hwork⟩
    simpa [refers] using List.count_eq_zero.mpr fun h => habsent (hp.mem_iff.mp h)
  | insert r' =>
    have hne : r' ≠ r := by simpa [refers] using hf
    refine ⟨hentry, ?_, hheld, rfl, hwork⟩
    exact fun h => (List.mem_cons.mp h).elim hne.symm fun h => habsent (List.mem_of_mem_erase h)
  | collectErase r' resources removed =>
    refine ⟨hentry, fun h => habsent (List.mem_of_mem_erase h), hheld, ?_, hwork⟩
    simp [refers, List.count_cons] at hf ⊢
    omega
  | submit s scheduledEpoch executor fs ha =>
    have hne : s.resource ≠ r := by simpa [refers] using hf
    refine ⟨hentry, habsent, hheld, ?_, fun id work hw => ?_⟩
    · rw [List.map_append, List.sum_append, List.map_map, sum_calls (g := refers r) Frame.runtime fun _ => rfl]
      rfl
    · by_cases hid : id = m.runtime.nextSubmissionId + 1
      · simp only [hid, Function.update_self, Option.some.injEq] at hw
        exact hw ▸ hne
      · exact hwork id work (by simpa [hid] using hw)
  | acquired r' =>
    have hne : r' ≠ r := by simpa [refers] using hf
    exact ⟨hentry, habsent, by simpa [hne.symm] using hheld, rfl, hwork⟩
  | acquireCount r' | storeAccess r' epoch | releaseLast r' | releaseCount r' | destroy r' | storeDirty r'
  | storeClean r' | abandon r' =>
    have hne : r' ≠ r := by simpa [refers] using hf
    exact ⟨by simpa [Manager.update, hne.symm] using hentry, habsent, hheld, by simp [refers, hne], hwork⟩
  | exchange s =>
    have hne : s.resource ≠ r := by simpa [refers] using hf
    exact ⟨by simpa [Manager.update, hne.symm] using hentry, habsent, hheld, by simp [refers, hne], hwork⟩
  | clearDirty id work | accessRetire id work | accessKeep id work hr | retire id work | clearRetired id work hr
  | clearFlag id work result =>
    have hne : work.resource ≠ r := by simpa [refers] using hf
    exact ⟨by simpa [Manager.update, hne.symm] using hentry, habsent, hheld, by simp [refers, hne], hwork⟩
  | collectDestroy r' resources removed =>
    have hne : r' ≠ r := fun h => by simp [refers, h] at hf
    exact ⟨by simpa [Manager.update, hne.symm] using hentry, habsent, hheld, by simpa [refers] using hf, hwork⟩
  | collectLive r' resources removed | sweepRetired r' resources request epoch | collectLeased r' resources removed
  | collectBusy r' resources removed | sweepLive r' resources request epoch =>
    refine ⟨hentry, habsent, hheld, ?_, hwork⟩
    simp [refers, List.count_cons] at hf ⊢
    omega
  | _ => exact ⟨hentry, habsent, hheld, by first | rfl | simpa [refers] using hf, hwork⟩

theorem leasing_le_refers (r : ℕ) (f : Frame) : leasing r f ≤ refers r f := by
  cases f <;> simp [leasing, refers]

/-- The lease count counts the leases held and those about to be returned or discounted. -/
theorem counted_step (h : Step (code body) c f x c') (hu : c.mem.nextId < r → Unregistered c r)
    (hi : (c.mem.entry r).leaseCount = c.mem.held r + c.total (leasing r)) :
    (c'.mem.entry r).leaseCount = c'.mem.held r + c'.total (leasing r) := by
  obtain ⟨fs, n, ha, hn, hn'⟩ := h.measure acts_of_code (leasing r)
  have hu : c.mem.nextId < r → c.mem.held r = 0 ∧ n = 0 := fun hr => by
    have hle := total_mono c (leasing_le_refers r)
    rw [(hu hr).frames, hn] at hle
    exact ⟨(hu hr).held, by omega⟩
  rw [hn] at hi
  rw [hn']
  generalize c.mem = m, c'.mem = m' at ha hi hu ⊢
  clear h hn hn'
  cases ha with
  | runtime frame runtime' fs ha hw =>
    rw [List.map_map, sum_calls (g := leasing r) Frame.runtime fun _ => rfl]
    exact hi
  | submit s scheduledEpoch executor fs ha =>
    rw [List.map_append, List.sum_append, List.map_map, sum_calls (g := leasing r) Frame.runtime fun _ => rfl]
    exact hi
  | register descriptor callbacks payload =>
    by_cases hr : r = m.nextId + 1
    · obtain ⟨hheld, rfl⟩ := hu (by omega)
      simpa [Manager.make, leasing, hr] using hheld.symm
    · simpa [Manager.make, leasing, hr] using hi
  | release r' hh =>
    by_cases hr : r' = r
    · subst hr
      simp [leasing] at hi ⊢
      omega
    · simpa [leasing, hr, Ne.symm hr] using hi
  | acquireCount r' | acquired r' | releaseLast r' | releaseCount r' =>
    by_cases hr : r' = r
    · subst hr
      simp [Manager.update, leasing] at hi ⊢
      omega
    · simpa [Manager.update, leasing, hr, Ne.symm hr] using hi
  | storeAccess r' epoch | destroy r' | storeDirty r' | storeClean r' | abandon r' | collectDestroy r' resources removed =>
    by_cases hr : r' = r
    · subst hr
      simpa [Manager.update, leasing] using hi
    · simpa [Manager.update, leasing, Ne.symm hr] using hi
  | exchange s =>
    by_cases hr : s.resource = r
    · subst hr
      simpa [Manager.update, leasing] using hi
    · simpa [Manager.update, leasing, Ne.symm hr] using hi
  | clearDirty id work | accessRetire id work | accessKeep id work hr | retire id work | clearRetired id work hr
  | clearFlag id work result =>
    by_cases hr : work.resource = r
    · subst hr
      simpa [Manager.update, leasing] using hi
    · simpa [Manager.update, leasing, Ne.symm hr] using hi
  | _ => exact hi

/-- The maintenance calls that found the entry free of leases and have not submitted yet, and the callbacks about to
run or running. -/
def checked (r : ℕ) : Frame → ℕ
  | .scheduleDirty s | .scheduleExchange s | .scheduleEpoch s | .submit s _ => if s.resource = r then 1 else 0
  | .loadLeases _ work _ | .maintain _ work _ _ => if work.resource = r then 1 else 0
  | _ => 0

def Manager.unfinished (m : Manager) (r : ℕ) : Bool :=
  (List.range (m.runtime.nextSubmissionId + 1)).any fun id =>
    (m.maintenance id).any (·.resource = r) && !(m.runtime.status (.submission id)).isTerminal

/-- No lease of an entry that must not be maintained while leased is taken from the test of a maintenance call to the
end of the maintenance, and no maintenance is executed again after its end. -/
def leasesOutsideMaintenance : Guard Manager Frame
  | c, .acquireCount r => (c.mem.entry r).descriptor.allowMaintenanceWhileLeased = false →
      c.total (checked r) = 0 ∧ c.mem.unfinished r = false
  | c, .runtime (.step id) => (c.mem.maintenance id).isSome → (c.mem.runtime.status (.submission id)).isTerminal = false
  | _, _ => True

instance (c : Config Manager Frame) (f : Frame) : Decidable (leasesOutsideMaintenance c f) :=
  decidable_of_bool (match f with
    | .acquireCount r => (c.mem.entry r).descriptor.allowMaintenanceWhileLeased = false →
      c.total (checked r) = 0 ∧ c.mem.unfinished r = false
    | .runtime (.step id) => (c.mem.maintenance id).isSome → (c.mem.runtime.status (.submission id)).isTerminal = false
    | _ => true) (by unfold leasesOutsideMaintenance; split <;> simp only [decide_eq_true_iff])

theorem unfinished_iff : m.unfinished r = true ↔ ∃ id ≤ m.runtime.nextSubmissionId, ∃ work,
    m.maintenance id = some work ∧ work.resource = r ∧ (m.runtime.status (.submission id)).isTerminal = false := by
  simp only [Manager.unfinished, List.any_eq_true, List.mem_range, Nat.lt_succ_iff, Bool.and_eq_true,
    Option.any_eq_true, decide_eq_true_eq, Bool.not_eq_true']
  constructor
  · rintro ⟨id, hle, ⟨work, hw, hr⟩, hs⟩
    exact ⟨id, hle, work, hw, hr, hs⟩
  · rintro ⟨id, hle, work, hw, hr, hs⟩
    exact ⟨id, hle, ⟨work, hw, hr⟩, hs⟩

theorem submitted_step (h : Step (code body) c f x c')
    (hi : ∀ id work, c.mem.maintenance id = some work → id ≤ c.mem.runtime.nextSubmissionId) :
    ∀ id work, c'.mem.maintenance id = some work → id ≤ c'.mem.runtime.nextSubmissionId := by
  obtain ⟨fs, he⟩ := h.runs_code
  have ha := acts_of_code he
  generalize c.mem = m, c'.mem = m' at ha hi ⊢
  cases ha with
  | runtime frame runtime' fs ha hw => exact fun id work hm => (hi id work hm).trans ha.next_le
  | submit s scheduledEpoch executor fs ha =>
    intro id work hm
    by_cases hid : id = m.runtime.nextSubmissionId + 1
    · exact hid.le
    · exact (hi id work (by simpa [hid] using hm)).trans (Nat.le_succ _)
  | _ => exact hi

/-- The maintenance of an entry is unfinished from its submission on. -/
theorem Acts.unfinished (ha : Acts body m f m' fs)
    (hs : ∀ id work, m.maintenance id = some work → id ≤ m.runtime.nextSubmissionId)
    (hu : m'.unfinished r = true) : m.unfinished r = true ∨ 0 < checked r f := by
  obtain ⟨id, hid, work, hw, hr, ht⟩ := unfinished_iff.mp hu
  cases ha with
  | runtime frame runtime' fs ha hn =>
    refine .inl (unfinished_iff.mpr ⟨id, hs id work hw, work, hw, hr, ?_⟩)
    by_contra hterm
    rw [ha.terminal (by simpa using hterm)] at ht
    cases ht
  | submit s scheduledEpoch executor fs ha =>
    by_cases hnew : id = m.runtime.nextSubmissionId + 1
    · simp only [hnew, Function.update_self, Option.some.injEq] at hw
      exact .inr (by simp [checked, ← hr, ← hw])
    · have hw : m.maintenance id = some work := by simpa [hnew] using hw
      exact .inl (unfinished_iff.mpr ⟨id, hs id work hw, work, hw, hr, ht⟩)
  | _ => exact .inl (unfinished_iff.mpr ⟨id, hid, work, hw, hr, ht⟩)

/-- A maintenance passes the test of an entry without leases, or of one that may be maintained while leased;
a submitted one runs. -/
theorem Acts.open_or (ha : Acts body m f m' fs) (r : ℕ) :
    (fs.map (checked r)).sum ≤ checked r f ∨ (m.entry r).leaseCount = 0 ∨
      (m.entry r).descriptor.allowMaintenanceWhileLeased = true ∨
      ∃ id work, f = .runtime (.step id) ∧ m.maintenance id = some work ∧ work.resource = r := by
  cases ha with
  | runtime frame runtime' fs ha hw =>
    rw [List.map_map, sum_calls (g := checked r) Frame.runtime fun _ => rfl]
    exact .inl (Nat.zero_le _)
  | submit s scheduledEpoch executor fs ha =>
    rw [List.map_append, List.sum_append, List.map_map,
      sum_calls (g := checked r) Frame.runtime fun _ => rfl]
    exact .inl (Nat.zero_le _)
  | step id work payload hw =>
    by_cases hr : work.resource = r
    · exact .inr (.inr (.inr ⟨id, work, rfl, hw, hr⟩))
    · exact .inl (by simp [checked, hr])
  | scheduleLeased s hl =>
    by_cases hr : s.resource = r
    · exact .inr (.inr (.inl (hr ▸ hl)))
    · exact .inl (by simp [checked, hr])
  | noLeases s hl =>
    by_cases hr : s.resource = r
    · exact .inr (.inl (hr ▸ hl))
    · exact .inl (by simp [checked, hr])
  | maintainCall id work payload leaseCount call => exact .inl (by simp [checked])
  | _ => exact .inl (by first | exact Nat.zero_le _ | exact Nat.le_refl _)

theorem Acts.leases (ha : Acts body m f m' fs) (r : ℕ) :
    (m'.entry r).leaseCount = 0 ∨ (m'.entry r).descriptor = (m.entry r).descriptor ∧
      ((m'.entry r).leaseCount ≤ (m.entry r).leaseCount ∨ f = .acquireCount r) := by
  rcases ha.entry_eq r with h | h
  · rw [h]
    exact .inr ⟨rfl, .inl le_rfl⟩
  · generalize m'.entry r = e at h
    cases h with
    | register descriptor callbacks payload hr => exact .inl rfl
    | acquire => exact .inr ⟨rfl, .inr rfl⟩
    | release => exact .inr ⟨rfl, .inl (Nat.sub_le _ _)⟩
    | destroy | collect resources removed => exact .inr (by simp)
    | _ => exact .inr ⟨rfl, .inl le_rfl⟩

/-- While a maintenance is under way the entry has no leases. -/
theorem unleased_step (h : Step (code body) c f x c') (hg : leasesOutsideMaintenance c f)
    (hs : ∀ id work, c.mem.maintenance id = some work → id ≤ c.mem.runtime.nextSubmissionId)
    (hi : (c.mem.entry r).descriptor.allowMaintenanceWhileLeased = false →
      0 < c.total (checked r) ∨ c.mem.unfinished r = true → (c.mem.entry r).leaseCount = 0) :
    (c'.mem.entry r).descriptor.allowMaintenanceWhileLeased = false →
      0 < c'.total (checked r) ∨ c'.mem.unfinished r = true → (c'.mem.entry r).leaseCount = 0 := by
  obtain ⟨fs, n, ha, hn, hn'⟩ := h.measure acts_of_code (checked r)
  intro hallow hopen
  by_contra hpos
  obtain ⟨hd, hle⟩ := (ha.leases r).resolve_left hpos
  rw [hd] at hallow
  -- the maintenance was under way before the action, unless the action is the test that finds no lease
  have hbefore : (c.mem.entry r).leaseCount = 0 ∨ 0 < c.total (checked r) ∨ c.mem.unfinished r = true := by
    rcases hopen with hopen | hopen
    · rcases ha.open_or r with hc | hc | hc | ⟨id, work, rfl, hw, hr⟩
      · exact .inr (.inl (by omega))
      · exact .inl hc
      · rw [hc] at hallow
        cases hallow
      · exact .inr (.inr (unfinished_iff.mpr ⟨id, hs id work hw, work, hw, hr, hg (by simp [hw])⟩))
    · rcases ha.unfinished hs hopen with hu | hc
      · exact .inr (.inr hu)
      · exact .inr (.inl (by omega))
  rcases hle with hle | rfl
  · have hz := hbefore.elim id (hi hallow)
    omega
  · -- an acquire meets the guard, so no maintenance was under way
    obtain ⟨hz, hu⟩ := hg hallow
    rcases hopen with hopen | hopen
    · have hc : (fs.map (checked r)).sum = 0 := by
        generalize c'.mem = m' at ha
        cases ha
        rfl
      have hf : checked r (.acquireCount r) = 0 := rfl
      omega
    · rcases ha.unfinished hs hopen with hu' | hc
      · rw [hu] at hu'
        cases hu'
      · cases hc

structure Leases (c : Config Manager Frame) : Prop where
  unregistered : ∀ r, c.mem.nextId < r → Unregistered c r
  submitted : ∀ id work, c.mem.maintenance id = some work → id ≤ c.mem.runtime.nextSubmissionId
  counted : ∀ r, (c.mem.entry r).leaseCount = c.mem.held r + c.total (leasing r)

theorem leases_start : Leases (start workerCount programs) where
  unregistered r _ := ⟨rfl, by simp [start], rfl, total_start rfl fun _ => rfl, nofun⟩
  submitted := nofun
  counted r := by
    rw [total_start rfl fun _ => rfl]
    rfl

theorem Acts.nextId_le (ha : Acts body m f m' fs) : m.nextId ≤ m'.nextId := by
  cases ha with
  | register descriptor callbacks payload => exact Nat.le_succ _
  | _ => exact le_rfl

theorem leases_step (h : Step (code body) c f x c') (hi : Leases c) : Leases c' := by
  obtain ⟨fs, he⟩ := h.runs_code
  have hle := (acts_of_code he).nextId_le
  exact ⟨fun r hr => unregistered_step h hr (hi.unregistered r (by omega)), submitted_step h hi.submitted,
    fun r => counted_step h (hi.unregistered r) (hi.counted r)⟩

theorem leases_reaches {guard : Guard Manager Frame} (h : Reaches (code body) guard (start workerCount programs) c) :
    Leases c := by
  induction h with
  | refl => exact leases_start
  | step _ _ hs ih => exact leases_step hs ih

theorem unleased_reaches (h : Reaches (code body) leasesOutsideMaintenance (start workerCount programs) c) (r : ℕ) :
    (c.mem.entry r).descriptor.allowMaintenanceWhileLeased = false →
      0 < c.total (checked r) ∨ c.mem.unfinished r = true → (c.mem.entry r).leaseCount = 0 := by
  induction h with
  | refl => exact fun _ _ => rfl
  | step hr hg hs ih => exact unleased_step hs hg (leases_reaches hr).submitted ih

/-- In every run in which no lease is taken from the test of a maintenance call to the end of its maintenance, and
no maintenance is executed again after its end, a callback runs only while no lease on its entry is held, unless the
entry may be maintained while leased. -/
theorem maintenance_unleased (h : Reaches (code body) leasesOutsideMaintenance (start workerCount programs) c)
    {id leaseCount : ℕ} {work : Maintenance} {payload : Option ℕ} (hf : .maintain id work payload leaseCount ∈ c.frames)
    (hallow : (c.mem.entry work.resource).descriptor.allowMaintenanceWhileLeased = false) :
    c.mem.held work.resource = 0 := by
  have hpos : 0 < c.total (checked work.resource) := total_pos.mpr ⟨_, hf, by simp [checked]⟩
  have hz := unleased_reaches h work.resource hallow (.inl hpos)
  have hc := (leases_reaches h).counted work.resource
  omega

/-- An entry with a maintenance callback; a maintenance waits for the event 0; then a lease is taken. -/
def leaseBeforeMaintenance : List (List Call) :=
  [[.register {} {maintain := true} (some 7), .scheduleMaintenance {resource := 1, prerequisites := [.created 0]},
    .acquire 1, .runtime (.complete 0 .completed)]]

/-- The prerequisite completes while the lease is held, and the callback runs. -/
theorem maintenance_while_leased : ¬ ∀ c, Reaches (code fun _ => []) free (start 1 leaseBeforeMaintenance) c →
    ∀ id work payload leaseCount, .maintain id work payload leaseCount ∈ c.frames →
    (c.mem.entry work.resource).descriptor.allowMaintenanceWhileLeased = false → c.mem.held work.resource = 0 := by
  intro h
  have he : (runs (code fun _ => []) free (start 1 leaseBeforeMaintenance)
      (List.replicate 32 (1, .runtime .full))).map
        (fun c => (c.threads, c.mem.held 1, (c.mem.entry 1).descriptor.allowMaintenanceWhileLeased)) =
      some ([[.runtime .worker], [.maintain 1 ⟨1, {}, 0⟩ (some 7) 1, .runtime (.invoke [])]], 1, false) := rfl
  obtain ⟨c, hc, he⟩ := Option.map_eq_some_iff.mp he
  simp only [Prod.mk.injEq] at he
  obtain ⟨ht, hheld, hallow⟩ := he
  have hz := h c (reaches_of_runs hc) 1 ⟨1, {}, 0⟩ (some 7) 1 (by simp [Config.frames, ht]) hallow
  rw [hheld] at hz
  cases hz

/-- A lease taken and released before the maintenance is scheduled. -/
theorem maintenance_after_lease : ∃ c, Reaches (code fun _ => []) leasesOutsideMaintenance
    (start 1 [[.register {} {maintain := true} (some 7), .acquire 1, .release 1, .scheduleMaintenance {resource := 1}]]) c ∧
    .maintain 1 ⟨1, {}, 0⟩ (some 7) 0 ∈ c.frames ∧ c.mem.held 1 = 0 := by
  have he : (runs (code fun _ => []) leasesOutsideMaintenance
      (start 1 [[.register {} {maintain := true} (some 7), .acquire 1, .release 1, .scheduleMaintenance {resource := 1}]])
      (List.replicate 24 (1, .runtime .full))).map
        (fun c => (c.threads, (c.mem.entry 1).descriptor.allowMaintenanceWhileLeased)) =
      some ([[.runtime .worker],
        [.maintain 1 ⟨1, {}, 0⟩ (some 7) 0, .runtime (.returned 1), .ticket 1 .scheduled 1]], false) := rfl
  obtain ⟨c, hc, he⟩ := Option.map_eq_some_iff.mp he
  simp only [Prod.mk.injEq] at he
  obtain ⟨ht, hallow⟩ := he
  have hf : .maintain 1 ⟨1, {}, 0⟩ (some 7) 0 ∈ c.frames := by simp [Config.frames, ht]
  exact ⟨c, reaches_of_runs hc, hf, maintenance_unleased (reaches_of_runs hc) hf hallow⟩

end Zpc.AsyncResourceManager
