import Zpc.Interleaving

/-!
# Coroutines that await a flag

`AsyncFlag` of `AsyncAwaitables.hpp`: one bit, and one slot for the handle of a suspended coroutine that no resumption
clears. Each load and store and each resumption is one action, and any threads interleave. What a coroutine calls after
it has awaited the flag is a parameter.
-/
namespace Zpc.AsyncFlag
open Interleaving

/-- A suspended `co_await`, numbered in the order of their starts, and the coroutine that it continues. -/
structure Handle where
  number : ℕ
  coroutine : ℕ
  deriving DecidableEq

inductive Call
  | coAwait (coroutine : ℕ)
  | signal
  | reset
  deriving DecidableEq

/-- The two members, with a record of the run: the awaits that were suspended and the resumptions, each with whether
the flag was signaled. -/
structure Flag where
  signaled : Bool := false
  waiter : Option Handle := none
  awaits : ℕ := 0
  suspended : List Handle := []
  resumed : List (Handle × Bool) := []

inductive Frame
  | call (call : Call)
  | storeWaiter (handle : Handle)
  | checkSignaled (handle : Handle)
  | resume (handle : Handle)
  | loadWaiter
  | clearWaiter
  deriving DecidableEq

/-- The atomic actions; `body` is what a coroutine calls when it goes on. -/
def code (body : ℕ → List Call) : Code Flag Frame Unit := fun m f _ => match f with
  | .call (.coAwait k) =>
      if m.signaled then some ({m with awaits := m.awaits + 1}, (body k).map .call)
      else some ({m with awaits := m.awaits + 1, suspended := ⟨m.awaits, k⟩ :: m.suspended},
        [.storeWaiter ⟨m.awaits, k⟩])
  | .storeWaiter h => some ({m with waiter := some h}, [.checkSignaled h])
  | .checkSignaled h => some (m, if m.signaled then [.resume h] else [])
  | .resume h => some ({m with resumed := (h, m.signaled) :: m.resumed}, (body h.coroutine).map .call)
  | .call .signal => some ({m with signaled := true}, [.loadWaiter])
  | .loadWaiter => some (m, m.waiter.toList.map .resume)
  | .call .reset => some ({m with signaled := false}, [.clearWaiter])
  | .clearWaiter => some ({m with waiter := none}, [])

def Flag.resumptions (m : Flag) (h : Handle) : ℕ := (m.resumed.map Prod.fst).count h

/-- The flag is reset only while no coroutine is suspended on it. -/
def resetsUnawaited : Guard Flag Frame := fun c f => match f with
  | .call .reset | .clearWaiter => ∀ h ∈ c.mem.suspended, h ∈ c.mem.resumed.map Prod.fst
  | _ => True

instance (c : Config Flag Frame) (f : Frame) : Decidable (resetsUnawaited c f) := by
  unfold resetsUnawaited
  split <;> infer_instance

/-- A coroutine takes the slot only from one that has been resumed, is about to be, or has still to look at the flag;
it finds the flag not signaled only while it is in the slot; and a signal finds a coroutine there only if the flag is
still signaled and the coroutine has looked at the flag, has not been resumed and is not about to be. -/
def slotInTurn : Guard Flag Frame := fun c f => match f with
  | .storeWaiter _ => ∀ h ∈ c.mem.waiter, h ∈ c.mem.resumed.map Prod.fst ∨ .resume h ∈ c.frames ∨ .checkSignaled h ∈ c.frames
  | .checkSignaled h => c.mem.signaled = true ∨ c.mem.waiter = some h
  | .loadWaiter => ∀ h ∈ c.mem.waiter, c.mem.signaled = true ∧ h ∉ c.mem.resumed.map Prod.fst ∧ .resume h ∉ c.frames ∧
      .checkSignaled h ∉ c.frames
  | _ => True

instance (c : Config Flag Frame) (f : Frame) : Decidable (slotInTurn c f) := by
  unfold slotInTurn
  split <;> infer_instance

def inTurn : Guard Flag Frame := fun c f => resetsUnawaited c f ∧ slotInTurn c f

instance (c : Config Flag Frame) (f : Frame) : Decidable (inTurn c f) :=
  inferInstanceAs (Decidable (_ ∧ _))

def start (programs : List (List Call)) : Config Flag Frame := ⟨{}, programs.map (·.map .call)⟩

variable {body : ℕ → List Call} {programs : List (List Call)} {c c' : Config Flag Frame} {m m' : Flag} {f g : Frame}
  {x : Unit} {fs : List Frame}

/-- What one action does, branch by branch. -/
inductive Acts (body : ℕ → List Call) (m : Flag) : Frame → Flag → List Frame → Prop
  | ready (k : ℕ) (hs : m.signaled = true) : Acts body m (.call (.coAwait k)) {m with awaits := m.awaits + 1}
      ((body k).map .call)
  | suspend (k : ℕ) (hs : m.signaled = false) : Acts body m (.call (.coAwait k))
      {m with awaits := m.awaits + 1, suspended := ⟨m.awaits, k⟩ :: m.suspended} [.storeWaiter ⟨m.awaits, k⟩]
  | storeWaiter (h : Handle) : Acts body m (.storeWaiter h) {m with waiter := some h} [.checkSignaled h]
  | signaled (h : Handle) (hs : m.signaled = true) : Acts body m (.checkSignaled h) m [.resume h]
  | unsignaled (h : Handle) (hs : m.signaled = false) : Acts body m (.checkSignaled h) m []
  | resume (h : Handle) : Acts body m (.resume h) {m with resumed := (h, m.signaled) :: m.resumed}
      ((body h.coroutine).map .call)
  | signal : Acts body m (.call .signal) {m with signaled := true} [.loadWaiter]
  | found (h : Handle) (hw : m.waiter = some h) : Acts body m .loadWaiter m [.resume h]
  | empty (hw : m.waiter = none) : Acts body m .loadWaiter m []
  | reset : Acts body m (.call .reset) {m with signaled := false} [.clearWaiter]
  | clearWaiter : Acts body m .clearWaiter {m with waiter := none} []

theorem acts_of_code (he : code body m f x = some (m', fs)) : Acts body m f m' fs := by
  cases f with
  | call call =>
    cases call with
    | coAwait k =>
      simp only [code] at he
      split_ifs at he with hs <;> cases he
      · exact .ready k hs
      · exact .suspend k (Bool.eq_false_iff.mpr hs)
    | signal => cases he; exact .signal
    | reset => cases he; exact .reset
  | storeWaiter h => cases he; exact .storeWaiter h
  | checkSignaled h =>
    simp only [code] at he
    split_ifs at he with hs <;> cases he
    · exact .signaled h hs
    · exact .unsignaled h (Bool.eq_false_iff.mpr hs)
  | resume h => cases he; exact .resume h
  | loadWaiter =>
    cases hw : m.waiter with
    | some h =>
      simp only [code, hw] at he
      cases he
      exact .found h hw
    | none =>
      simp only [code, hw] at he
      cases he
      exact .empty hw
  | clearWaiter => cases he; exact .clearWaiter

/-- A coroutine that is being suspended or is about to be resumed. -/
def holding (h : Handle) : Frame → ℕ
  | .storeWaiter h' | .checkSignaled h' | .resume h' => if h' = h then 1 else 0
  | _ => 0

def reading : Frame → ℕ
  | .loadWaiter => 1
  | _ => 0

/-- Every suspended coroutine is at one place: in a frame, resumed, or in the slot, where a signal is still to find it
once the flag is signaled. -/
structure Awaits (c : Config Flag Frame) : Prop where
  numbered : ∀ h ∈ c.mem.suspended, h.number < c.mem.awaits
  once : ∀ h, c.total (holding h) + c.mem.resumptions h ≤ if h ∈ c.mem.suspended then 1 else 0
  slot : ∀ h ∈ c.mem.waiter, h ∈ c.mem.suspended
  unstored : ∀ h, .storeWaiter h ∈ c.frames → c.mem.waiter ≠ some h
  waits : ∀ h ∈ c.mem.suspended, c.total (holding h) + c.mem.resumptions h = 0 →
    c.mem.waiter = some h ∧ (c.mem.signaled = true → 0 < c.total reading)
  flagged : ∀ h, .resume h ∈ c.frames → c.mem.signaled = true
  recorded : ∀ p ∈ c.mem.resumed, p.2 = true

theorem mem_resumed {h : Handle} : h ∈ m.resumed.map Prod.fst ↔ 0 < m.resumptions h :=
  List.count_pos_iff.symm

theorem total_holding_pos {h : Handle} (hf : f ∈ c.frames) (hh : holding h f = 1) : 0 < c.total (holding h) :=
  total_pos.mpr ⟨f, hf, by omega⟩

theorem eq_of_holding {h h' : Handle} (hp : 0 < if h' = h then 1 else 0) : h' = h := by
  by_contra hne
  rw [if_neg hne] at hp
  exact lt_irrefl _ hp

theorem calls_holding (h : Handle) (calls : List Call) : ((calls.map Frame.call).map (holding h)).sum = 0 := by
  rw [List.map_map]
  exact sum_calls Frame.call (fun _ => rfl) calls

theorem calls_reading (calls : List Call) : ((calls.map Frame.call).map reading).sum = 0 := by
  rw [List.map_map]
  exact sum_calls Frame.call (fun _ => rfl) calls

theorem Awaits.held (hi : Awaits c) {h : Handle} (hf : f ∈ c.frames) (hh : holding h f = 1) :
    h ∈ c.mem.suspended ∧ c.mem.resumptions h = 0 := by
  have hpos := total_holding_pos hf hh
  have honce := hi.once h
  split_ifs at honce with hs
  · exact ⟨hs, by omega⟩
  · omega

/-- The coroutine that a signal finds is nowhere else. -/
theorem Awaits.found (hi : Awaits c) (hg : inTurn c .loadWaiter) {h : Handle} (hw : c.mem.waiter = some h) :
    c.mem.signaled = true ∧ c.total (holding h) + c.mem.resumptions h = 0 := by
  obtain ⟨hs, hresumed, hresume, hcheck⟩ := hg.2 h hw
  have hcount : c.mem.resumptions h = 0 := by
    rw [mem_resumed] at hresumed
    omega
  have htotal : c.total (holding h) = 0 := by
    by_contra hne
    obtain ⟨g, hg', hpos⟩ := total_pos.mp (Nat.pos_of_ne_zero hne)
    cases g with
    | storeWaiter h' =>
      obtain rfl := eq_of_holding hpos
      exact hi.unstored h' hg' hw
    | checkSignaled h' =>
      obtain rfl := eq_of_holding hpos
      exact hcheck hg'
    | resume h' =>
      obtain rfl := eq_of_holding hpos
      exact hresume hg'
    | _ => exact absurd hpos (by simp [holding])
  exact ⟨hs, by omega⟩

theorem once_step (h : Step (code body) c f x c') (hg : inTurn c f) (hi : Awaits c) (k : Handle) :
    c'.total (holding k) + c'.mem.resumptions k ≤ if k ∈ c'.mem.suspended then 1 else 0 := by
  obtain ⟨fs, r, ha, hr, hr'⟩ := h.measure acts_of_code (holding k)
  have honce := hi.once k
  have hnumbered := hi.numbered
  have hslot := hi.slot
  have hfound := fun hg => hi.found (h := k) hg
  rw [hr] at honce hfound
  rw [hr']
  generalize c.mem = m, c'.mem = m' at ha honce hnumbered hslot hfound ⊢
  cases ha with
  | ready k' hs =>
    rw [calls_holding]
    exact honce
  | suspend k' hs =>
    by_cases hk : k = ⟨m.awaits, k'⟩
    · have hnew : k ∉ m.suspended := fun hmem => by
        have hlt := hnumbered k hmem
        rw [hk] at hlt
        exact absurd hlt (lt_irrefl _)
      rw [if_neg hnew] at honce
      simp only [holding, hk, List.map_cons, List.map_nil, List.sum_cons, List.sum_nil, List.mem_cons, true_or,
        if_true, Flag.resumptions] at honce ⊢
      omega
    · simp only [holding, List.map_cons, List.map_nil, List.sum_cons, List.sum_nil, List.mem_cons, hk, false_or,
        if_neg (Ne.symm hk)] at honce ⊢
      simpa [Flag.resumptions] using honce
  | storeWaiter h' | signaled h' hs => simpa [holding, Flag.resumptions] using honce
  | unsignaled h' hs =>
    refine le_trans ?_ honce
    simp [Nat.add_assoc]
  | resume h' =>
    rw [calls_holding]
    refine le_trans (le_of_eq ?_) honce
    simp only [holding, Flag.resumptions, List.map_cons, List.count_cons, beq_iff_eq]
    omega
  | found h' hw =>
    by_cases hk : h' = k
    · subst hk
      have hzero := (hfound hg hw).2
      rw [if_pos (hslot h' hw)]
      simp only [holding, List.map_cons, List.map_nil, List.sum_cons, List.sum_nil, if_true] at hzero ⊢
      omega
    · simpa [holding, hk] using honce
  | signal | empty hw | reset | clearWaiter => simpa [holding, Flag.resumptions] using honce

/-- A coroutine that is suspended and nowhere else is in the slot. -/
theorem waits_step (h : Step (code body) c f x c') (hg : inTurn c f) (hi : Awaits c) (k : Handle)
    (hk : k ∈ c'.mem.suspended) (hz : c'.total (holding k) + c'.mem.resumptions k = 0) :
    c'.mem.waiter = some k ∧ (c'.mem.signaled = true → 0 < c'.total reading) := by
  obtain ⟨fs, he, ht⟩ := h.total
  have ha := acts_of_code he
  obtain ⟨r, hr, hr'⟩ := ht (holding k)
  obtain ⟨q, hq, hq'⟩ := ht reading
  have hwaits := hi.waits k
  have hreset : resetsUnawaited c f := hg.1
  have hturn : slotInTurn c f := hg.2
  have hframe : ∀ g ∈ c.frames, holding k g = 1 → 0 < c.total (holding k) := fun g hg hh => total_holding_pos hg hh
  rw [hr', Nat.add_eq_zero_iff, Nat.add_eq_zero_iff] at hz
  obtain ⟨⟨hnew, hold⟩, hres⟩ := hz
  rw [hr, hq, hold, Nat.add_zero] at hwaits
  rw [hr, hold, Nat.add_zero] at hframe
  rw [hq']
  unfold resetsUnawaited at hreset
  unfold slotInTurn at hturn
  generalize c.mem = m, c'.mem = m' at ha hk hres hwaits hreset hturn ⊢
  have hidle (hf : holding k f = 0) (hres : m.resumptions k = 0) (hk : k ∈ m.suspended) := hwaits hk (by rw [hf, hres])
  cases ha with
  | ready k' hs =>
    rw [calls_reading]
    exact hidle rfl hres hk
  | suspend k' hs =>
    rcases List.mem_cons.mp hk with rfl | hk
    · simp [holding] at hnew
    · exact ⟨(hidle rfl hres hk).1, fun hs' => absurd (hs.symm.trans hs') Bool.false_ne_true⟩
  | storeWaiter h' =>
    by_cases hh : h' = k
    · simp [holding, hh] at hnew
    · have hzero : holding k (.storeWaiter h') = 0 := if_neg hh
      have hslot := (hidle hzero hres hk).1
      rcases hturn k hslot with hresumed | hf | hf
      · rw [mem_resumed] at hresumed
        exact absurd hres (Nat.pos_iff_ne_zero.mp hresumed)
      · exact absurd (hframe _ hf (if_pos rfl)) (by rw [hzero]; exact lt_irrefl _)
      · exact absurd (hframe _ hf (if_pos rfl)) (by rw [hzero]; exact lt_irrefl _)
  | signaled h' hs =>
    rw [List.map_singleton, List.sum_singleton] at hnew
    exact hwaits hk (by rw [hres, Nat.add_zero]; exact hnew)
  | unsignaled h' hs =>
    refine ⟨?_, fun hs' => absurd (hs.symm.trans hs') Bool.false_ne_true⟩
    by_cases hh : h' = k
    · rcases hturn with hs' | hslot
      · exact absurd (hs.symm.trans hs') Bool.false_ne_true
      · exact hh ▸ hslot
    · exact (hidle (if_neg hh) hres hk).1
  | resume h' =>
    by_cases hh : h' = k
    · simp [Flag.resumptions, hh] at hres
    · rw [calls_reading]
      rw [Flag.resumptions, List.map_cons, List.count_cons_of_ne hh] at hres
      exact hidle (if_neg hh) hres hk
  | signal => exact ⟨(hidle rfl hres hk).1, fun _ => Nat.add_pos_left Nat.one_pos _⟩
  | found h' hw =>
    by_cases hh : h' = k
    · simp [holding, hh] at hnew
    · have hslot := (hidle rfl hres hk).1
      exact absurd (Option.some.inj (hw.symm.trans hslot)) hh
  | empty hw =>
    have hslot := (hidle rfl hres hk).1
    exact absurd (hw.symm.trans hslot) nofun
  | reset | clearWaiter =>
    have hresumed := mem_resumed.mp (hreset k hk)
    exact absurd hres (Nat.pos_iff_ne_zero.mp hresumed)

theorem awaits_start : Awaits (start programs) := by
  have hframes : ∀ f ∈ (start programs).frames, ∃ call, f = .call call := by
    intro f hf
    obtain ⟨k, hk, hf⟩ := List.mem_flatten.mp hf
    obtain ⟨program, -, rfl⟩ := List.mem_map.mp hk
    obtain ⟨call, -, rfl⟩ := List.mem_map.mp hf
    exact ⟨call, rfl⟩
  refine ⟨nofun, fun h => ?_, nofun, fun h hf => ?_, nofun, fun h hf => ?_, nofun⟩
  · have hzero : (start programs).total (holding h) = 0 := total_programs Frame.call (fun _ => rfl) _ programs
    rw [hzero]
    exact Nat.zero_le _
  · obtain ⟨call, hcall⟩ := hframes _ hf
    cases hcall
  · obtain ⟨call, hcall⟩ := hframes _ hf
    cases hcall

theorem awaits_step (h : Step (code body) c f x c') (hg : inTurn c f) (hi : Awaits c) : Awaits c' := by
  obtain ⟨fs, he⟩ := h.runs_code
  have ha := acts_of_code he
  refine ⟨?_, once_step h hg hi, ?_, fun k hk => ?_, waits_step h hg hi, fun k hk => ?_, ?_⟩
  · have hnumbered := hi.numbered
    generalize c.mem = m, c'.mem = m' at ha hnumbered ⊢
    cases ha with
    | ready k hs => exact fun h hh => (hnumbered h hh).trans (Nat.lt_succ_self _)
    | suspend k hs =>
      intro h hh
      rcases List.mem_cons.mp hh with rfl | hh
      · exact Nat.lt_succ_self _
      · exact (hnumbered h hh).trans (Nat.lt_succ_self _)
    | _ => exact hnumbered
  · have hslot := hi.slot
    have hheld := fun k (hh : holding k f = 1) => (hi.held h.mem_frame hh).1
    generalize c.mem = m, c'.mem = m' at ha hslot hheld ⊢
    cases ha with
    | suspend k hs => exact fun h hw => List.mem_cons_of_mem _ (hslot h hw)
    | storeWaiter k =>
      intro h hw
      obtain rfl := Option.some.inj hw
      exact hheld k (if_pos rfl)
    | clearWaiter => exact nofun
    | _ => exact hslot
  · have hunstored := hi.unstored k
    have hslot := hi.slot
    have hnumbered := hi.numbered
    have honce := hi.once k
    rcases h.new_or_old he hk with hk | hk
    · generalize c.mem = m, c'.mem = m' at ha hslot hnumbered ⊢
      cases ha with
      | ready k' hs => simp at hk
      | resume h' => simp at hk
      | suspend k' hs =>
        obtain rfl := Frame.storeWaiter.inj (List.mem_singleton.mp hk)
        intro hw
        exact absurd (hnumbered _ (hslot _ hw)) (lt_irrefl _)
      | _ => simp at hk
    · have htwo := hk.le_total (holding k)
      have hold := hunstored hk.mem
      generalize c.mem = m, c'.mem = m' at ha hold honce ⊢
      cases ha with
      | storeWaiter h' =>
        intro hw
        obtain rfl := Option.some.inj hw
        simp only [holding, if_true] at htwo
        split_ifs at honce <;> omega
      | clearWaiter => exact nofun
      | _ => exact hold
  · have hfound := fun hg => hi.found (h := k) hg
    have hreset : resetsUnawaited c f := hg.1
    have hheld := fun hf : .resume k ∈ c.frames => hi.held (f := .resume k) (h := k) hf (if_pos rfl)
    have hflagged := hi.flagged k
    unfold resetsUnawaited at hreset
    rcases h.new_or_old he hk with hk | hk
    · generalize c.mem = m, c'.mem = m' at ha hfound ⊢
      cases ha with
      | ready k' hs | resume h' => simp at hk
      | signaled h' hs => exact hs
      | found h' hw =>
        obtain rfl := Frame.resume.inj (List.mem_singleton.mp hk)
        exact (hfound hg hw).1
      | _ => simp at hk
    · have hold := hflagged hk.mem
      obtain ⟨hs, hres⟩ := hheld hk.mem
      generalize c.mem = m, c'.mem = m' at ha hold hs hres hreset ⊢
      cases ha with
      | signal => rfl
      | reset => exact absurd hres (Nat.pos_iff_ne_zero.mp (mem_resumed.mp (hreset k hs)))
      | _ => exact hold
  · have hrecorded := hi.recorded
    have hflagged := fun k (hf : f = .resume k) => hi.flagged k (hf ▸ h.mem_frame)
    generalize c.mem = m, c'.mem = m' at ha hrecorded hflagged ⊢
    cases ha with
    | resume k =>
      intro p hp
      rcases List.mem_cons.mp hp with rfl | hp
      · exact hflagged k rfl
      · exact hrecorded p hp
    | _ => exact hrecorded

theorem awaits_reaches (h : Reaches (code body) inTurn (start programs) c) : Awaits c := by
  induction h with
  | refl => exact awaits_start
  | step _ hg hs ih => exact awaits_step hs hg ih

/-- In every run in which the slot is used in turn, no coroutine is resumed before the flag is signaled or twice for one
`co_await`, and once the flag is signaled and nothing runs any more, every suspended coroutine has been resumed. -/
theorem resumed_once (h : Reaches (code body) inTurn (start programs) c) :
    (∀ p ∈ c.mem.resumed, p.2 = true) ∧ (∀ h, c.mem.resumptions h ≤ 1) ∧
      (Quiescent (code body) c → c.mem.signaled = true → ∀ h ∈ c.mem.suspended, c.mem.resumptions h = 1) := by
  have hi := awaits_reaches h
  have hle : ∀ h, c.mem.resumptions h ≤ 1 := fun h => by
    have honce := hi.once h
    split_ifs at honce <;> omega
  refine ⟨hi.recorded, hle, fun hq hs h hh => ?_⟩
  have hframes : c.frames = [] := by
    apply hq.returned_of_acts
    intro f k _ hblocked
    have hblocked := hblocked ()
    cases f with
    | call call =>
      cases call with
      | coAwait j =>
        simp only [code] at hblocked
        split_ifs at hblocked
      | _ => cases hblocked
    | _ => cases hblocked
  have hzero {u : Frame → ℕ} : c.total u = 0 := by
    rw [Config.total, hframes]
    rfl
  by_contra hne
  have hpos := (hi.waits h hh (by rw [hzero]; have := hle h; omega)).2 hs
  rw [hzero] at hpos
  exact lt_irrefl _ hpos

def twoAwaiters : List (List Call) := [[.coAwait 0, .coAwait 1, .signal]]

/-- The second coroutine takes the slot of the first, which is never resumed. -/
theorem first_awaiter_lost : ¬ ∀ (programs : List (List Call)) (c : Config Flag Frame),
    Reaches (code fun _ => []) resetsUnawaited (start programs) c →
    (∀ p ∈ c.mem.resumed, p.2 = true) ∧ (∀ h, c.mem.resumptions h ≤ 1) ∧
      (Quiescent (code fun _ => []) c → c.mem.signaled = true → ∀ h ∈ c.mem.suspended, c.mem.resumptions h = 1) := by
  intro hall
  have he : (runs (code fun _ => []) resetsUnawaited (start twoAwaiters) (List.replicate 9 (0, ()))).map
      (fun c => (c.threads, c.mem.signaled, c.mem.suspended, c.mem.resumed)) =
      some ([[]], true, [⟨1, 1⟩, ⟨0, 0⟩], [(⟨1, 1⟩, true)]) := rfl
  obtain ⟨c, hc, he⟩ := Option.map_eq_some_iff.mp he
  simp only [Prod.mk.injEq] at he
  obtain ⟨ht, hs, hsuspended, hresumed⟩ := he
  have hq : Quiescent (code fun _ => []) c := quiescent_of_returned (by simp [ht])
  have hone := (hall twoAwaiters c (reaches_of_runs hc)).2.2 hq hs ⟨0, 0⟩ (by simp [hsuspended])
  rw [Flag.resumptions, hresumed] at hone
  exact absurd hone (by decide)

/-- One coroutine, then a signal on another thread, and the reset before the next. -/
theorem resumed_once_reset : ∃ c, Reaches (code fun _ => []) inTurn
      (start [[.coAwait 0], [.signal, .reset, .coAwait 1, .signal]]) c ∧
    Quiescent (code fun _ => []) c ∧ c.mem.resumptions ⟨0, 0⟩ = 1 ∧ c.mem.resumptions ⟨1, 1⟩ = 1 := by
  have he : (runs (code fun _ => []) inTurn (start [[.coAwait 0], [.signal, .reset, .coAwait 1, .signal]])
      (List.replicate 3 (0, ()) ++ List.replicate 11 (1, ()))).map
      (fun c => (c.threads, c.mem.signaled, c.mem.suspended)) =
      some ([[], []], true, [⟨1, 1⟩, ⟨0, 0⟩]) := rfl
  obtain ⟨c, hc, he⟩ := Option.map_eq_some_iff.mp he
  simp only [Prod.mk.injEq] at he
  obtain ⟨ht, hs, hsuspended⟩ := he
  have hq : Quiescent (code fun _ => []) c := quiescent_of_returned (by simp [ht])
  have hone := (resumed_once (reaches_of_runs hc)).2.2 hq hs
  exact ⟨c, reaches_of_runs hc, hq, hone _ (by simp [hsuspended]), hone _ (by simp [hsuspended])⟩

end Zpc.AsyncFlag
