import Mathlib.Algebra.Order.BigOperators.Group.List
import Mathlib.Algebra.Order.Group.Multiset
import Mathlib.Algebra.Order.Ring.Nat
import Mathlib.Data.List.Flatten

/-!
# Threads with control stacks over one shared memory

A thread is a stack of frames, each frame an atomic action still to run. Executing
the top frame reads and writes the shared memory and replaces that frame by the
frames that continue it; a call pushes the callee's frames above the caller's.
The runs considered are all interleavings of the threads, optionally only those
whose every action meets a guard in the configuration it is taken from.
-/
namespace Interleaving
variable {Mem Frame Choice : Type*}

/-- The effect of one frame: `none` when it is blocked, otherwise the new memory
and the frames that replace it. The choice resolves what the code leaves open. -/
abbrev Code (Mem Frame Choice : Type*) := Mem → Frame → Choice → Option (Mem × List Frame)

structure Config (Mem Frame : Type*) where
  mem : Mem
  threads : List (List Frame)

namespace Config
def frames (c : Config Mem Frame) : List Frame := c.threads.flatten

/-- The sum of a measure over every frame of every thread. -/
def total {A : Type*} [AddCommMonoid A] (g : Frame → A) (c : Config Mem Frame) : A :=
  (c.frames.map g).sum

/-- No thread keeps a `P` frame waiting under a call. -/
def OnlyTop (P : Frame → Prop) (c : Config Mem Frame) : Prop := ∀ k ∈ c.threads, ∀ f ∈ k.tail, ¬ P f

/-- A `P` frame is the last of its thread. -/
def Bottom (P : Frame → Prop) (c : Config Mem Frame) : Prop := ∀ k ∈ c.threads, ∀ f ∈ k.dropLast, ¬ P f

/-- Every frame that runs for an owner other than `o` has a frame of that owner below it. -/
def Served {J : Type*} (owner job : Frame → Option J) (o : Option J) : List Frame → Prop
  | [] => True
  | f :: k => (∀ p, owner f = some p → o = some p ∨ ∃ g ∈ k, job g = some p) ∧ Served owner job o k

end Config

/-- One atomic action: the frame `f` on top of some thread runs with choice `x`. -/
inductive Step (code : Code Mem Frame Choice) : Config Mem Frame → Frame → Choice → Config Mem Frame → Prop
  | run {m m' : Mem} {f : Frame} {x : Choice} {fs k : List Frame} (before after : List (List Frame))
      (he : code m f x = some (m', fs)) :
      Step code ⟨m, before ++ (f :: k) :: after⟩ f x ⟨m', before ++ (fs ++ k) :: after⟩

abbrev Guard (Mem Frame : Type*) := Config Mem Frame → Frame → Prop

/-- The configurations reached from `c₀` by actions that all meet the guard. -/
inductive Reaches (code : Code Mem Frame Choice) (guard : Guard Mem Frame) (c₀ : Config Mem Frame) :
    Config Mem Frame → Prop
  | refl : Reaches code guard c₀ c₀
  | step {c c' : Config Mem Frame} {f : Frame} {x : Choice} (h : Reaches code guard c₀ c)
      (hg : guard c f) (hs : Step code c f x c') : Reaches code guard c₀ c'

/-- The guard that every action meets. -/
def free : Guard Mem Frame := fun _ _ => True

instance (c : Config Mem Frame) (f : Frame) : Decidable (free c f) := .isTrue trivial

/-- No thread has an action left that it could take. -/
def Quiescent (code : Code Mem Frame Choice) (c : Config Mem Frame) : Prop :=
  ∀ f x c', ¬ Step code c f x c'

variable {code : Code Mem Frame Choice} {guard : Guard Mem Frame} {c₀ c c' : Config Mem Frame}
  {f : Frame} {x : Choice}

theorem Reaches.trans {c₁ : Config Mem Frame} (h : Reaches code guard c₀ c₁) (h' : Reaches code guard c₁ c) :
    Reaches code guard c₀ c := by
  induction h' with
  | refl => exact h
  | step _ hg hs ih => exact .step ih hg hs

/-- An action exchanges its frame for the frames that continue it and leaves all others. -/
theorem Step.frames (h : Step code c f x c') : ∃ fs rest, code c.mem f x = some (c'.mem, fs) ∧
    c.frames.Perm (f :: rest) ∧ c'.frames.Perm (fs ++ rest) := by
  obtain ⟨before, after, he⟩ := h
  rename_i m m' fs k
  refine ⟨fs, before.flatten ++ (k ++ after.flatten), he, ?_, ?_⟩
  · simp [Config.frames]
  · simpa [Config.frames] using (List.perm_append_comm_assoc before.flatten fs (k ++ after.flatten))

theorem Step.runs_code (h : Step code c f x c') : ∃ fs, code c.mem f x = some (c'.mem, fs) := by
  obtain ⟨fs, _, he, _⟩ := h.frames
  exact ⟨fs, he⟩

theorem Step.mem_frame (h : Step code c f x c') : f ∈ c.frames := by
  obtain ⟨fs, rest, _, hp, _⟩ := h.frames
  exact hp.mem_iff.mpr (by simp)

/-- Without frames there is nothing to run. -/
theorem Reaches.eq_of_frames (h : Reaches code guard c₀ c) (h₀ : c₀.frames = []) : c = c₀ := by
  induction h with
  | refl => rfl
  | step _ _ hs ih =>
    have hf := hs.mem_frame
    rw [ih, h₀] at hf
    cases hf

theorem total_of_perm {A : Type*} [AddCommMonoid A] {l : List Frame} (h : c.frames.Perm l) (g : Frame → A) :
    c.total g = (l.map g).sum := (h.map g).sum_eq

theorem total_mono (c : Config Mem Frame) {g g' : Frame → ℕ} (h : ∀ f, g f ≤ g' f) : c.total g ≤ c.total g' :=
  List.sum_le_sum fun f _ => h f

theorem total_add {A : Type*} [AddCommMonoid A] (c : Config Mem Frame) (g g' : Frame → A) :
    c.total (fun f => g f + g' f) = c.total g + c.total g' := List.sum_map_add

theorem map_total {A B : Type*} [AddCommMonoid A] [AddCommMonoid B] (φ : A →+ B) (g : Frame → A) :
    φ (c.total g) = c.total fun f => φ (g f) := by
  simp [Config.total, map_list_sum, Function.comp_def]

/-- How an additive measure changes: its value at the frame becomes its value at the
frames that continue it. -/
theorem Step.total (h : Step code c f x c') : ∃ fs, code c.mem f x = some (c'.mem, fs) ∧
    ∀ {A : Type*} [AddCommMonoid A] (g : Frame → A),
      ∃ r, c.total g = g f + r ∧ c'.total g = (fs.map g).sum + r := by
  obtain ⟨fs, rest, he, hp, hp'⟩ := h.frames
  refine ⟨fs, he, fun g => ⟨(rest.map g).sum, ?_, ?_⟩⟩
  · simpa using total_of_perm hp g
  · simpa using total_of_perm hp' g

/-- The same for code described by a relation `R`. -/
theorem Step.measure {A : Type*} [AddCommMonoid A] {R : Mem → Frame → Mem → List Frame → Prop}
    (h : Step code c f x c') (hR : ∀ {m f x m' fs}, code m f x = some (m', fs) → R m f m' fs) (g : Frame → A) :
    ∃ fs r, R c.mem f c'.mem fs ∧ c.total g = g f + r ∧ c'.total g = (fs.map g).sum + r := by
  obtain ⟨fs, he, ht⟩ := h.total
  obtain ⟨r, hr, hr'⟩ := ht g
  exact ⟨fs, r, hR he, hr, hr'⟩

/-- `g` is a frame of the configuration beside one occurrence of `f`. -/
def Beside (c : Config Mem Frame) (f g : Frame) : Prop :=
  ∃ rest, c.frames.Perm (f :: rest) ∧ g ∈ rest

theorem Beside.mem {g : Frame} (h : Beside c f g) : g ∈ c.frames := by
  obtain ⟨rest, hp, hg⟩ := h
  exact hp.mem_iff.mpr (List.mem_cons_of_mem _ hg)

/-- An assertion on every frame survives an action when the new frames meet it and
the change of memory cannot break it for the frames of other calls. -/
theorem Step.all {Q Q' : Frame → Prop} (h : Step code c f x c') (hq : ∀ g ∈ c.frames, Q g)
    (hnew : ∀ fs, code c.mem f x = some (c'.mem, fs) → ∀ g ∈ fs, Q' g)
    (hold : ∀ g, Beside c f g → Q g → Q' g) : ∀ g ∈ c'.frames, Q' g := by
  obtain ⟨fs, rest, he, hp, hp'⟩ := h.frames
  intro g hg
  rcases List.mem_append.mp (hp'.mem_iff.mp hg) with hg | hg
  · exact hnew fs he g hg
  · exact hold g ⟨rest, hp, hg⟩ (hq g (hp.mem_iff.mpr (List.mem_cons_of_mem _ hg)))

/-- A frame that does not run in an action is still there after it. -/
theorem Step.mem_of_ne (h : Step code c f x c') {g : Frame} (hg : g ∈ c.frames) (hne : g ≠ f) : g ∈ c'.frames := by
  obtain ⟨fs, rest, _, hp, hp'⟩ := h.frames
  rcases List.mem_cons.mp (hp.mem_iff.mp hg) with hg | hg
  · exact absurd hg hne
  · exact hp'.mem_iff.mpr (List.mem_append_right _ hg)

theorem Step.mem_of_new (h : Step code c f x c') {fs : List Frame} (he : code c.mem f x = some (c'.mem, fs))
    {g : Frame} (hg : g ∈ fs) : g ∈ c'.frames := by
  obtain ⟨fs', _, he', _, hp'⟩ := h.frames
  obtain rfl : fs = fs' := by rw [he] at he'; exact (Prod.ext_iff.mp (Option.some.inj he')).2
  exact hp'.mem_iff.mpr (List.mem_append_left _ hg)

theorem Step.beside (h : Step code c f x c') {g : Frame} (hg : g ∈ c.frames) (hne : g ≠ f) : Beside c f g := by
  obtain ⟨fs, rest, _, hp, _⟩ := h.frames
  exact ⟨rest, hp, (List.mem_cons.mp (hp.mem_iff.mp hg)).resolve_left hne⟩

/-- A frame after an action is new, or was there beside the one that ran. -/
theorem Step.new_or_old (h : Step code c f x c') {fs : List Frame} (he : code c.mem f x = some (c'.mem, fs)) {g : Frame}
    (hg : g ∈ c'.frames) : g ∈ fs ∨ Beside c f g := by
  obtain ⟨fs', rest, he', hp, hp'⟩ := h.frames
  obtain rfl : fs = fs' := by rw [he] at he'; exact (Prod.ext_iff.mp (Option.some.inj he')).2
  exact (List.mem_append.mp (hp'.mem_iff.mp hg)).imp_right fun hg => ⟨rest, hp, hg⟩

theorem le_total (g : Frame → ℕ) (hf : f ∈ c.frames) : g f ≤ c.total g :=
  List.le_sum_of_mem (List.mem_map_of_mem hf)

theorem Beside.le_total {g : Frame} (h : Beside c f g) (u : Frame → ℕ) : u f + u g ≤ c.total u := by
  obtain ⟨rest, hp, hg⟩ := h
  rw [total_of_perm hp]
  exact Nat.add_le_add_left (List.le_sum_of_mem (List.mem_map_of_mem hg)) _

/-- Two frames beside each other are counted apart. -/
theorem Beside.total {A : Type*} [AddCommMonoid A] {g : Frame} (h : Beside c f g) (u : Frame → A) :
    ∃ r, c.total u = u f + (u g + r) := by
  obtain ⟨rest, hp, hg⟩ := h
  obtain ⟨l, l', rfl⟩ := List.append_of_mem hg
  refine ⟨((l ++ l').map u).sum, ?_⟩
  rw [total_of_perm (hp.trans (List.Perm.cons f List.perm_middle))]
  simp

theorem total_of_mem {A : Type*} [AddCommMonoid A] (hf : f ∈ c.frames) (u : Frame → A) :
    ∃ r, c.total u = u f + r := by
  obtain ⟨l, l', he⟩ := List.append_of_mem hf
  refine ⟨((l ++ l').map u).sum, ?_⟩
  rw [total_of_perm (he ▸ List.perm_middle)]
  simp

theorem total_pos {g : Frame → ℕ} : 0 < c.total g ↔ ∃ f ∈ c.frames, 0 < g f := by
  simp [Config.total, List.sum_pos_iff_exists_pos_nat]

theorem mem_total {A : Type*} {a : A} {g : Frame → Multiset A} : a ∈ c.total g ↔ ∃ f ∈ c.frames, a ∈ g f := by
  unfold Config.total
  induction c.frames with
  | nil => simp
  | cons f fs ih => simp [ih]

section Spawn
variable {m : Mem} {before after : List (List Frame)} {k : List Frame}

theorem mem_spawn {g : Frame} : g ∈ (⟨m, before ++ (f :: k) :: after⟩ : Config Mem Frame).frames ↔
    g = f ∨ g ∈ (⟨m, before ++ k :: after⟩ : Config Mem Frame).frames := by
  simp only [Config.frames, List.flatten_append, List.flatten_cons, List.mem_append, List.mem_cons]
  tauto

theorem forall_spawn {P : Frame → Prop} (hf : P f)
    (h : ∀ g ∈ (⟨m, before ++ k :: after⟩ : Config Mem Frame).frames, P g) :
    ∀ g ∈ (⟨m, before ++ (f :: k) :: after⟩ : Config Mem Frame).frames, P g := fun g hg => by
  rcases mem_spawn.mp hg with rfl | hg
  · exact hf
  · exact h g hg

theorem total_spawn {A : Type*} [AddCommMonoid A] (u : Frame → A) :
    (⟨m, before ++ (f :: k) :: after⟩ : Config Mem Frame).total u =
      u f + (⟨m, before ++ k :: after⟩ : Config Mem Frame).total u := by
  simp only [Config.total, Config.frames, List.flatten_append, List.flatten_cons, List.map_append, List.map_cons,
    List.sum_append, List.sum_cons]
  rw [add_assoc, add_left_comm]

end Spawn

theorem Step.onlyTop {P : Frame → Prop} (h : Step code c f x c') (hp : c.OnlyTop P)
    (hnew : ∀ fs, code c.mem f x = some (c'.mem, fs) → ∀ g ∈ fs.tail, ¬ P g) : c'.OnlyTop P := by
  obtain ⟨before, after, he⟩ := h
  rename_i m m' fs k
  intro k' hk' g hg
  rcases List.mem_append.mp hk' with hk' | hk'
  · exact hp k' (List.mem_append_left _ hk') g hg
  rcases List.mem_cons.mp hk' with rfl | hk'
  · have hk : ∀ g ∈ k, ¬ P g := hp (f :: k) (by simp)
    cases fs with
    | nil => exact hk g (List.mem_of_mem_tail hg)
    | cons f' fs =>
      rcases List.mem_append.mp hg with hg | hg
      · exact hnew _ he g hg
      · exact hk g hg
  · exact hp k' (List.mem_append_right _ (List.mem_cons_of_mem _ hk')) g hg

/-- A `P` frame is replaced by frames with a new `P` frame at most at their end. -/
theorem Step.bottom {P : Frame → Prop} (h : Step code c f x c') (hp : c.Bottom P)
    (hnew : ∀ fs, code c.mem f x = some (c'.mem, fs) → (∀ g ∈ fs, ¬ P g) ∨ P f ∧ ∀ g ∈ fs.dropLast, ¬ P g) :
    c'.Bottom P := by
  obtain ⟨before, after, he⟩ := h
  rename_i m m' fs k
  intro k' hk' g hg
  have hk : ∀ g ∈ (f :: k).dropLast, ¬ P g := hp (f :: k) (by simp)
  rcases List.mem_append.mp hk' with hk' | hk'
  · exact hp k' (List.mem_append_left _ hk') g hg
  rcases List.mem_cons.mp hk' with rfl | hk'
  · cases k with
    | nil =>
      rw [List.append_nil] at hg
      rcases hnew _ he with hn | ⟨_, hn⟩
      · exact hn g ((List.dropLast_subset _ hg))
      · exact hn g hg
    | cons f' k =>
      rw [List.dropLast_append_of_ne_nil (List.cons_ne_nil _ _)] at hg
      rcases List.mem_append.mp hg with hg | hg
      · rcases hnew _ he with hn | ⟨hf, _⟩
        · exact hn g hg
        · exact absurd hf (hk f (by simp))
      · exact hk g (by simpa using .inr hg)
  · exact hp k' (List.mem_append_right _ (List.mem_cons_of_mem _ hk')) g hg

section Served
variable {J : Type*} {owner job : Frame → Option J}

theorem served_of_forall {o : Option J} {fs : List Frame} (h : ∀ g ∈ fs, ∀ p, owner g = some p → o = some p) :
    Config.Served owner job o fs := by
  induction fs with
  | nil => trivial
  | cons g fs ih =>
    exact ⟨fun p hp => .inl (h g List.mem_cons_self p hp), ih fun u hu => h u (List.mem_cons_of_mem _ hu)⟩

theorem served_append {o : Option J} {fs k : List Frame} (hk : Config.Served owner job none k)
    (ho : ∀ p, o = some p → ∃ g ∈ k, job g = some p) (hfs : Config.Served owner job o fs) :
    Config.Served owner job none (fs ++ k) := by
  induction fs with
  | nil => exact hk
  | cons g fs ih =>
    refine ⟨fun p hp => .inr ?_, ih hfs.2⟩
    rcases hfs.1 p hp with h | ⟨u, hu, hj⟩
    · obtain ⟨u, hu, hj⟩ := ho p h
      exact ⟨u, List.mem_append_right _ hu, hj⟩
    · exact ⟨u, List.mem_append_left _ hu, hj⟩

/-- The new frames run for the owner of the frame they replace, or for a job among them. -/
theorem Step.served (h : Step code c f x c') (hs : ∀ k ∈ c.threads, Config.Served owner job none k)
    (hnew : ∀ fs, code c.mem f x = some (c'.mem, fs) → Config.Served owner job (owner f) fs) :
    ∀ k ∈ c'.threads, Config.Served owner job none k := by
  obtain ⟨before, after, he⟩ := h
  rename_i m m' fs k
  have hf : Config.Served owner job none (f :: k) := hs _ (by simp)
  intro k' hk'
  rcases List.mem_append.mp hk' with hk' | hk'
  · exact hs k' (List.mem_append_left _ hk')
  rcases List.mem_cons.mp hk' with rfl | hk'
  · exact served_append hf.2 (fun p hp => (hf.1 p hp).resolve_left (by simp)) (hnew fs he)
  · exact hs k' (List.mem_append_right _ (List.mem_cons_of_mem _ hk'))

theorem job_of_served {k : List Frame} (hs : Config.Served owner job none k) (hf : f ∈ k) {p : J}
    (hp : owner f = some p) : ∃ u ∈ k, job u = some p := by
  induction k with
  | nil => cases hf
  | cons g k ih =>
    rcases List.mem_cons.mp hf with rfl | hf
    · obtain ⟨u, hu, hj⟩ := (hs.1 p hp).resolve_left (by simp)
      exact ⟨u, List.mem_cons_of_mem _ hu, hj⟩
    · obtain ⟨u, hu, hj⟩ := ih hs.2 hf
      exact ⟨u, List.mem_cons_of_mem _ hu, hj⟩

theorem job_of_owner (hs : ∀ k ∈ c.threads, Config.Served owner job none k) (hf : f ∈ c.frames) {p : J}
    (hp : owner f = some p) : ∃ u ∈ c.frames, job u = some p := by
  obtain ⟨k, hk, hf⟩ := List.mem_flatten.mp hf
  obtain ⟨u, hu, hj⟩ := job_of_served (hs k hk) hf hp
  exact ⟨u, List.mem_flatten.mpr ⟨k, hk, hu⟩, hj⟩

end Served

theorem Quiescent.blocked {k : List Frame} (h : Quiescent code c) (hk : (f :: k) ∈ c.threads) (x : Choice) :
    code c.mem f x = none := by
  obtain ⟨before, after, hs⟩ := List.append_of_mem hk
  obtain ⟨m, threads⟩ := c
  cases he : code m f x with
  | none => rfl
  | some r =>
    obtain rfl : threads = before ++ (f :: k) :: after := hs
    exact absurd (Step.run before after he) (h f x _)

/-- When no frame on top of a thread blocks, nothing is left once no thread can act. -/
theorem Quiescent.returned_of_acts (h : Quiescent code c)
    (hb : ∀ f k, (f :: k) ∈ c.threads → ¬ ∀ x, code c.mem f x = none) : c.frames = [] := by
  refine List.flatten_eq_nil_iff.mpr fun k hk => ?_
  cases k with
  | nil => rfl
  | cons f k => exact absurd (fun x => h.blocked hk x) (hb f k hk)

/-- When only bottom frames can block, nothing but them is left once no thread can act. -/
theorem Quiescent.all_bottom {P : Frame → Prop} (h : Quiescent code c) (hp : c.Bottom P)
    (hb : ∀ f, (∀ x, code c.mem f x = none) → P f) : ∀ f ∈ c.frames, P f := by
  intro f hf
  obtain ⟨k, hk, hf⟩ := List.mem_flatten.mp hf
  cases k with
  | nil => cases hf
  | cons g k =>
    have hg : P g := hb g fun x => h.blocked hk x
    cases k with
    | nil => exact List.mem_singleton.mp hf ▸ hg
    | cons g' k => exact absurd hg (hp _ hk g (by simp))

/-- When a bottom frame can block only while `R` holds, no thread can act and there is a frame left, `R` holds. -/
theorem Quiescent.idle {P : Frame → Prop} {R : Prop} (h : Quiescent code c) (hp : c.Bottom P)
    (hb : ∀ f, (∀ x, code c.mem f x = none) → P f ∧ R) (hf : f ∈ c.frames) : R ∧ ∀ g ∈ c.frames, P g := by
  refine ⟨?_, h.all_bottom hp fun g hg => (hb g hg).1⟩
  obtain ⟨k, hk, hf⟩ := List.mem_flatten.mp hf
  cases k with
  | nil => cases hf
  | cons g k => exact (hb g fun x => h.blocked hk x).2

theorem quiescent_of_blocked (h : ∀ f k, (f :: k) ∈ c.threads → ∀ x, code c.mem f x = none) : Quiescent code c := by
  rintro f x c' hs
  obtain ⟨before, after, he⟩ := hs
  rename_i m m' fs k
  have hb := h f k (by simp) x
  rw [show code m f x = some (m', fs) from he] at hb
  cases hb

theorem quiescent_of_returned (h : ∀ k ∈ c.threads, k = []) : Quiescent code c :=
  quiescent_of_blocked fun _ _ hk => absurd (h _ hk) (List.cons_ne_nil _ _)

theorem quiescent_of_lengths {n : ℕ} (h : c.threads.map List.length = List.replicate n 0) : Quiescent code c := by
  refine quiescent_of_returned fun k hk => List.length_eq_zero_iff.mp ?_
  exact List.eq_of_mem_replicate (h ▸ List.mem_map_of_mem hk)

/-- A frame that is only ever on top runs next in its thread. -/
theorem Config.OnlyTop.top {P : Frame → Prop} (h : c.OnlyTop P) (hf : f ∈ c.frames) (hp : P f) :
    ∃ k, (f :: k) ∈ c.threads := by
  obtain ⟨k, hk, hf⟩ := List.mem_flatten.mp hf
  cases k with
  | nil => cases hf
  | cons g k =>
    rcases List.mem_cons.mp hf with rfl | hf
    · exact ⟨k, hk⟩
    · exact absurd hp (h _ hk f hf)

/-- Calls that block only on one of several mutexes, and not while they hold one, never deadlock. -/
theorem Quiescent.returned_of_locks {L : Type*} {holds : L → Frame → ℕ} {locked : L → Bool} (h : Quiescent code c)
    (hm : ∀ l, c.total (holds l) = (locked l).toNat) (htop : c.OnlyTop fun f => ∃ l, 0 < holds l f)
    (hb : ∀ f, (∀ x, code c.mem f x = none) → (∃ l, locked l = true) ∧ ∀ l, holds l f = 0) : c.frames = [] := by
  refine h.returned_of_acts fun f k _ hblocked => ?_
  obtain ⟨l, hl⟩ := (hb f hblocked).1
  obtain ⟨u, hu, hpos⟩ := total_pos.mp (show 0 < c.total (holds l) by rw [hm, hl]; decide)
  obtain ⟨k', hk'⟩ := htop.top hu ⟨l, hpos⟩
  have hu0 := (hb u fun x => h.blocked hk' x).2 l
  omega

/-- Calls that block only on a mutex, and not while they hold it, never deadlock. -/
theorem Quiescent.returned {holds : Frame → ℕ} {locked : Bool} (h : Quiescent code c) (hm : c.total holds = locked.toNat)
    (htop : c.OnlyTop fun f => holds f = 1) (hb : ∀ f, (∀ x, code c.mem f x = none) → locked = true ∧ holds f = 0) :
    c.frames = [] := by
  have hle : ∀ f ∈ c.frames, holds f ≤ 1 := fun f hf =>
    (le_total holds hf).trans (hm ▸ Bool.toNat_le locked)
  refine h.returned_of_locks (L := Unit) (fun _ => hm) (fun k hk f hf => ?_) fun f hf => ?_
  · rintro ⟨_, hpos⟩
    have hf1 := hle f (List.mem_flatten.mpr ⟨k, hk, List.mem_of_mem_tail hf⟩)
    exact htop k hk f hf (Nat.le_antisymm hf1 hpos)
  · exact ⟨⟨(), (hb f hf).1⟩, fun _ => (hb f hf).2⟩

theorem step_of_stack {m m' : Mem} {threads : List (List Frame)} {t : ℕ} {k fs : List Frame}
    (hk : threads[t]? = some (f :: k)) (he : code m f x = some (m', fs)) :
    Step code ⟨m, threads⟩ f x ⟨m', threads.set t (fs ++ k)⟩ := by
  obtain ⟨ht, hk⟩ := List.getElem?_eq_some_iff.mp hk
  have hs : threads = threads.take t ++ (f :: k) :: threads.drop (t+1) := by
    rw [← hk, List.getElem_cons_drop, List.take_append_drop]
  have hset : threads.set t (fs ++ k) = threads.take t ++ (fs ++ k) :: threads.drop (t+1) := by
    rw [List.set_eq_take_append_cons_drop, if_pos ht]
  rw [hset]
  conv => arg 2; rw [hs]
  exact .run _ _ he

/-- A measure that every action of a guarded run decreases bounds the run. -/
theorem no_infinite_run {μ : Config Mem Frame → ℕ} (hμ : ∀ {c f x c'}, Reaches code guard c₀ c → guard c f →
    Step code c f x c' → μ c' < μ c) :
    ¬ ∃ run : ℕ → Config Mem Frame, run 0 = c₀ ∧
      ∀ n, ∃ f x, guard (run n) f ∧ Step code (run n) f x (run (n+1)) := by
  rintro ⟨run, h0, hrun⟩
  have hr : ∀ n, Reaches code guard c₀ (run n) ∧ μ (run n) + n ≤ μ c₀ := by
    intro n
    induction n with
    | zero => exact ⟨h0 ▸ .refl, by rw [h0, Nat.add_zero]⟩
    | succ n ih =>
      obtain ⟨f, x, hg, hs⟩ := hrun n
      have hlt := hμ ih.1 hg hs
      exact ⟨.step ih.1 hg hs, by omega⟩
  have hle := (hr (μ c₀ + 1)).2
  omega

section Projection
variable {Mem' Frame' Choice' : Type*}

/-- The configuration seen through its memory and its frames. -/
def Config.project (mem : Mem → Mem') (frame : Frame → List Frame') (c : Config Mem Frame) : Config Mem' Frame' :=
  ⟨mem c.mem, c.threads.map (·.flatMap frame)⟩

theorem frames_project (mem : Mem → Mem') (frame : Frame → List Frame') (c : Config Mem Frame) :
    (c.project mem frame).frames = c.frames.flatMap frame := by
  simp only [Config.frames, Config.project]
  induction c.threads with
  | nil => rfl
  | cons k threads ih => rw [List.map_cons, List.flatten_cons, ih, List.flatten_cons, List.flatMap_append]

/-- When each action is seen as an action of other code or not at all, runs are seen as runs of that code. -/
theorem Reaches.project {code' : Code Mem' Frame' Choice'} {mem : Mem → Mem'} {frame : Frame → List Frame'}
    (hsim : ∀ {m f x m' fs}, code m f x = some (m', fs) → mem m' = mem m ∧ fs.flatMap frame = frame f ∨
      ∃ g k y gs, frame f = g :: k ∧ code' (mem m) g y = some (mem m', gs) ∧ fs.flatMap frame = gs ++ k)
    (h : Reaches code guard c₀ c) : Reaches code' free (c₀.project mem frame) (c.project mem frame) := by
  induction h with
  | refl => exact .refl
  | step _ _ hs ih =>
    obtain ⟨before, after, he⟩ := hs
    rename_i m m' fs k
    simp only [Config.project, List.map_append, List.map_cons, List.flatMap_append, List.flatMap_cons] at ih ⊢
    rcases hsim he with ⟨hm, hfs⟩ | ⟨g, k', y, gs, hf, hg, hfs⟩
    · rw [hm, hfs]
      exact ih
    · rw [hf] at ih
      rw [hfs, List.append_assoc]
      exact .step ih trivial (.run _ _ hg)

end Projection

section Programs
variable {α A : Type*} [AddCommMonoid A] {g : Frame → A} (call : α → Frame)

theorem sum_calls (hg : ∀ a, g (call a) = 0) (calls : List α) : (calls.map (g ∘ call)).sum = 0 := by
  induction calls with
  | nil => rfl
  | cons a calls ih => simp [hg, ih]

/-- A measure that ignores calls not yet begun vanishes while nothing has begun. -/
theorem total_programs (hg : ∀ a, g (call a) = 0) (m : Mem) (programs : List (List α)) :
    (⟨m, programs.map (·.map call)⟩ : Config Mem Frame).total g = 0 := by
  induction programs with
  | nil => rfl
  | cons p programs ih =>
    simp only [Config.total, Config.frames, List.map_cons, List.flatten_cons, List.map_append,
      List.sum_append, List.map_map] at ih ⊢
    rw [sum_calls call hg, zero_add]
    exact ih

variable {call} in
theorem mem_programs {m : Mem} {programs : List (List α)}
    (hf : f ∈ (⟨m, programs.map (·.map call)⟩ : Config Mem Frame).frames) : ∃ a, f = call a := by
  obtain ⟨k, hk, hf⟩ := List.mem_flatten.mp hf
  obtain ⟨p, _, rfl⟩ := List.mem_map.mp hk
  obtain ⟨a, _, rfl⟩ := List.mem_map.mp hf
  exact ⟨a, rfl⟩

variable {call} in
/-- Threads that all run one frame, beside the programs. -/
theorem mem_workers {m : Mem} {n : ℕ} {worker : Frame} {programs : List (List α)}
    (hf : f ∈ (⟨m, List.replicate n [worker] ++ programs.map (·.map call)⟩ : Config Mem Frame).frames) :
    f = worker ∨ ∃ a, f = call a := by
  obtain ⟨k, hk, hf⟩ := List.mem_flatten.mp hf
  rcases List.mem_append.mp hk with hk | hk
  · obtain rfl := List.eq_of_mem_replicate hk
    exact .inl (List.mem_singleton.mp hf)
  · exact .inr (mem_programs (m := m) (List.mem_flatten.mpr ⟨k, hk, hf⟩))

variable {call} in
theorem total_workers {worker : Frame} (hw : g worker = 0) (hc : ∀ a, g (call a) = 0) (m : Mem) (n : ℕ)
    (programs : List (List α)) :
    (⟨m, List.replicate n [worker] ++ programs.map (·.map call)⟩ : Config Mem Frame).total g = 0 := by
  refine List.sum_eq_zero fun y hy => ?_
  obtain ⟨f, hf, rfl⟩ := List.mem_map.mp hy
  rcases mem_workers hf with rfl | ⟨a, rfl⟩
  · exact hw
  · exact hc a

end Programs

/-- The configuration that a schedule leads to: each entry names a thread and a choice. -/
def runs (code : Code Mem Frame Choice) (guard : Guard Mem Frame) [∀ c f, Decidable (guard c f)] :
    Config Mem Frame → List (ℕ × Choice) → Option (Config Mem Frame)
  | c, [] => some c
  | c, (t, x) :: sched => match c.threads[t]? with
    | some (f :: k) => if guard c f then
        (code c.mem f x).bind fun r => runs code guard ⟨r.1, c.threads.set t (r.2 ++ k)⟩ sched
      else none
    | _ => none

theorem reaches_of_runs [∀ c f, Decidable (guard c f)] {sched : List (ℕ × Choice)}
    (h : runs code guard c sched = some c') : Reaches code guard c c' := by
  induction sched generalizing c with
  | nil => cases h; exact .refl
  | cons l sched ih =>
    obtain ⟨t, x⟩ := l
    simp only [runs] at h
    split at h
    · rename_i f k hk
      split at h
      · rename_i hg
        obtain ⟨⟨m, fs⟩, he, h⟩ := Option.bind_eq_some_iff.mp h
        exact (Reaches.refl.step hg (step_of_stack hk he)).trans (ih h)
      · cases h
    · cases h

end Interleaving
