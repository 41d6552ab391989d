import Zpc.MutexWake

/-!
# The calls of wait

A call of `wait` has one frame at any time, from its snapshot of the epoch until it has
returned from the futex. Once it has released the mutex it is among the calls that wait
on its condition variable. It compares the epoch once with the one it has seen, and
sleeps only when they agree.
-/
namespace Zpc.ConcurrencyPrimitive
open Interleaving ParkingLot

variable {seqs : BitVec 64 → Bool} {c c' : Config (Shared Words) (Frame Words Client)} {m m' : Shared Words}
  {f g : Frame Words Client} {fs : List (Frame Words Client)} {w : WaitCall} {s : BitVec 64} {x : Bool × Choice}

section Places
/-- The call of `wait` in which a thread is. -/
def Client.waits : Client → Option WaitCall
  | .unlockLoad _ _ w | .unlockCas _ _ w _ => w
  | .futexWait _ _ w | .futexReturn _ _ w _ => some w
  | _ => none

def waitOf (f : Frame Words Client) : Option WaitCall := match parkOf f, unparkOf f, f with
  | some p, _, _ => (p.ret .skip).waits
  | none, some u, _ => u.ret.waits
  | none, none, .client k => k.waits
  | none, none, _ => none

def callOf (f : Frame Words Client) : Option ℕ := (waitOf f).map WaitCall.call

def inCall (k : ℕ) (f : Frame Words Client) : ℕ := if callOf f = some k then 1 else 0

/-- The epoch has not been compared yet. -/
def undecided : Frame Words Client → Bool
  | .client (.futexReturn _ _ _ _) | .parkSkip _ | .parkUncount _ | .parkUnlock _ _ | .waitLock _ _ | .waitTest _ _ _
  | .waiting _ _ | .waitUnlock _ _ _ | .timeoutLock _ _ | .timeoutCheck _ _ | .timeoutUncount _ | .timeoutUnlock _ _ =>
    false
  | _ => true

/-- The mutex has been released. -/
def released : Frame Words Client → Bool
  | .client (.unlockLoad _ _ _) | .client (.unlockCas _ _ _ _) => false
  | _ => true

def sleeping (m : Shared Words) (f : Frame Words Client) : Bool := match nodeOf f with
  | some n => !(m.node n).signaled
  | none => false

theorem sleeping_iff : sleeping m f = true ↔ ∃ n, nodeOf f = some n ∧ (m.node n).signaled = false := by
  unfold sleeping
  cases nodeOf f <;> simp

@[simp] theorem waits_afterLock (t : ℕ) (st : Option CvStatus) : (afterLock t st).waits = none := by cases st <;> rfl

@[simp] theorem waits_afterUnlock (t : ℕ) (a : BitVec 64) (w : Option WaitCall) : (afterUnlock t a w).waits = w := by
  cases w <;> rfl

theorem waitOf_of_park {p : Park Words Client} (h : parkOf f = some p) : waitOf f = (p.ret .skip).waits := by
  unfold waitOf
  rw [h]

theorem waitOf_of_unpark {u : Unpark Client} (h : unparkOf f = some u) : waitOf f = u.ret.waits := by
  have hp : parkOf f = none := by cases f <;> first | rfl | cases h
  unfold waitOf
  rw [hp, h]

theorem callOf_of_waitOf (h : waitOf f = some w) : callOf f = some w.call := by rw [callOf, h]; rfl

theorem waitOf_of_callOf {k : ℕ} (h : callOf f = some k) : ∃ w, waitOf f = some w ∧ w.call = k :=
  Option.map_eq_some_iff.mp h

/-- A park call of a thread in a call of `wait` is that of the futex. -/
theorem park_of_wait (hv : Valid seqs m.words f) {p : Park Words Client} (hp : parkOf f = some p) (hw : waitOf f = some w) :
    ∃ t a, seqs w.seq = true ∧ p = futexPark t a w := by
  rw [waitOf_of_park hp] at hw
  rcases hv.park p hp with ⟨t, a, st, -, rfl⟩ | ⟨t, a, w', -, hs, rfl⟩
  · cases hw
  · cases hw
    exact ⟨t, a, hs, rfl⟩

/-- A thread that sleeps at the word of a condition variable is in a call of `wait`. -/
theorem wait_of_park (hv : Valid seqs m.words f) {p : Park Words Client} (hp : parkOf f = some p) (hs : seqs p.bits = true) :
    ∃ w, waitOf f = some w ∧ w.seq = p.bits ∧ p.call = w.call := by
  rw [waitOf_of_park hp]
  rcases hv.park p hp with ⟨t, a, st, ha, rfl⟩ | ⟨t, a, w', -, -, rfl⟩
  · have ha' : seqs a = true := hs
    rw [ha] at ha'
    cases ha'
  · exact ⟨w', rfl, rfl, rfl⟩

theorem seqs_of_wait (hv : Valid seqs m.words f) (hw : waitOf f = some w) : seqs w.seq = true := by
  cases hp : parkOf f with
  | some p =>
    obtain ⟨_, _, hs, -⟩ := park_of_wait hv hp hw
    exact hs
  | none =>
    cases hu : unparkOf f with
    | some u =>
      rw [waitOf_of_unpark hu] at hw
      rcases hv.unpark u hu with ⟨t, a, w', -, hs, rfl⟩ | ⟨t, s, all, ws, -, rfl⟩
      · exact hs w ((waits_afterUnlock t a w').symm.trans hw)
      · cases hw
    | none =>
      obtain ⟨k, rfl⟩ := client_of_none hp hu
      have hvk := hv.client k rfl
      cases k with
      | unlockLoad t a w' | unlockCas t a w' old => exact hvk.1.2 w hw
      | futexWait t a w' | futexReturn t a w' r =>
        cases hw
        exact hvk.2
      | _ => cases hw

end Places

section Steps
/-- What becomes of the call of `wait` of the thread that acts. -/
inductive Waits (m : Words) (f : Frame Words Client) (m' : Words) (g : Frame Words Client) : Prop
  | keep (hw : waitOf g = waitOf f) (hn : m'.nextCall = m.nextCall) (hm : m'.waiting = m.waiting)
      (hd : ∀ w, waitOf f = some w → (undecided g = true → undecided f = true) ∧ (released g = true → released f = true))
  | enter (w : WaitCall) (hf : waitOf f = some w) (hg : waitOf g = some w) (hn : m'.nextCall = m.nextCall)
      (hm : m'.waiting = Function.update m.waiting w.seq (w.call :: m.waiting w.seq)) (hd : undecided f = true)
  | leave (w : WaitCall) (hf : waitOf f = some w) (hg : waitOf g = none) (hn : m'.nextCall = m.nextCall)
      (hm : m'.waiting = Function.update m.waiting w.seq ((m.waiting w.seq).erase w.call))
  | begin (w : WaitCall) (hf : waitOf f = none) (hg : waitOf g = some w) (hc : w.call = m.nextCall)
      (hn : m'.nextCall = m.nextCall + 1) (hm : m'.waiting = m.waiting) (hr : released g = false)

theorem Calls.waits {m m' : Words} {k : Client} {nx : Next Words Client} (h : Calls seqs m k m' nx) :
    ∃ g, nx.frames = [g] ∧ Waits m (.client k) m' g := by
  cases h with
  | waitLoad t s a timed => exact ⟨_, rfl, .begin _ rfl rfl rfl rfl rfl rfl⟩
  | futexReturn t a w r st => exact ⟨_, rfl, .leave w rfl rfl rfl rfl⟩
  | acquireFirst t a st h | acquire t a st old n h =>
    exact ⟨_, rfl, .keep (waits_afterLock t st) rfl rfl fun w hw => by cases hw⟩
  | unlockWake t a w old h h' | unlockQuiet t a w old h h' =>
    refine ⟨_, rfl, ?_⟩
    cases w with
    | none => exact .keep rfl rfl rfl fun w hw => by cases hw
    | some w => exact .enter w rfl rfl rfl rfl rfl
  | unlockLoad t a w | unlockLost t a w old => exact ⟨_, rfl, .keep rfl rfl rfl fun _ _ => ⟨fun _ => rfl, nofun⟩⟩
  | futexWait t a w => exact ⟨_, rfl, .keep rfl rfl rfl fun _ _ => ⟨fun _ => rfl, fun _ => rfl⟩⟩
  | _ => exact ⟨_, rfl, .keep rfl rfl rfl nofun⟩

theorem undecided_before {client : ParkingLot.Client Words Client Choice} (h : Acts client m f m' fs) (hg : g ∈ fs)
    (hf : ∀ k, f ≠ .client k) (hk : ∀ k, g ≠ .client k) (hd : undecided g = true) : undecided f = true := by
  cases h with
  | client k _ w nx h => exact absurd rfl (hf k)
  | _ =>
    rw [List.mem_singleton.mp hg] at hd hk
    first
    | rfl
    | exact absurd rfl (hk _)
    | cases hd

/-- One frame takes the place of the one that acts. -/
theorem waits_of_code (he : code (client seqs) m f x = some (m', fs)) (hv : Valid seqs m.words f) :
    ∃ g, fs = [g] ∧ Waits m.words f m'.words g := by
  have hacts := acts_of_code he
  rcases hacts.follows with ⟨k, rfl⟩ | ⟨hw, g, rfl, hf⟩
  · cases hacts with
    | client _ _ w nx hk => exact (calls_of_client hk).waits
  · refine ⟨g, rfl, ?_⟩
    rw [hw]
    cases hf with
    | inside _ hp hu hg =>
      have hclient : ∀ k, f ≠ .client k := by
        rintro k rfl
        obtain ⟨k', rfl⟩ := client_of_none hp hu
        exact absurd rfl (hg k')
      refine .keep ?_ rfl rfl fun w _ => ⟨undecided_before hacts (List.mem_singleton.mpr rfl) hclient hg, fun _ => ?_⟩
      · unfold waitOf
        rw [hp, hu]
        cases hpf : parkOf f with
        | some p => rfl
        | none =>
          cases huf : unparkOf f with
          | some u => rfl
          | none =>
            obtain ⟨k, rfl⟩ := client_of_none (hp.trans hpf) (hu.trans huf)
            exact absurd rfl (hg k)
      · cases f <;> first | rfl | exact absurd rfl (hclient _)
    | parked p r hp =>
      have hr : released f = true := by cases f <;> first | rfl | cases hp
      refine .keep ?_ rfl rfl fun w hw => ⟨fun hd => ?_, fun _ => hr⟩
      · rw [waitOf_of_park hp]
        rcases hv.park p hp with ⟨t, a, st, -, rfl⟩ | ⟨t, a, w, -, -, rfl⟩ <;> rfl
      · obtain ⟨t, a, -, rfl⟩ := park_of_wait hv hp hw
        cases hd
    | unparked u hu =>
      refine .keep (waitOf_of_unpark hu).symm rfl rfl fun w _ => ⟨fun _ => ?_, fun _ => ?_⟩
      · cases f <;> first | rfl | cases hu
      · cases f <;> first | rfl | cases hu

/-- Whoever is in a call of `wait` was in it before, or has just begun it. -/
theorem wait_before (h : Step (code (client seqs)) c f x c') (hv : Valid seqs c.mem.words f) (hg : g ∈ c'.frames)
    (hw : waitOf g = some w) : (∃ g₀ ∈ c.frames, waitOf g₀ = some w ∧ (undecided g = true → undecided g₀ = true)) ∨
      w.call = c.mem.words.nextCall := by
  obtain ⟨fs, he⟩ := h.runs_code
  obtain ⟨g', rfl, hwaits⟩ := waits_of_code he hv
  rcases h.new_or_old he hg with hg | hb
  · obtain rfl := List.mem_singleton.mp hg
    cases hwaits with
    | keep hk _ _ hd =>
      rw [hk] at hw
      exact .inl ⟨f, h.mem_frame, hw, (hd w hw).1⟩
    | enter w' hf hg _ _ hd =>
      rw [hg] at hw
      exact .inl ⟨f, h.mem_frame, hf.trans hw, fun _ => hd⟩
    | leave _ _ hg _ _ =>
      rw [hg] at hw
      cases hw
    | begin w' _ hg hc _ _ _ =>
      rw [hg] at hw
      cases hw
      exact .inr hc
  · exact .inl ⟨g, hb.mem, hw, id⟩

theorem nextCall_le (h : Step (code (client seqs)) c f x c') (hv : Valid seqs c.mem.words f) :
    c.mem.words.nextCall ≤ c'.mem.words.nextCall := by
  obtain ⟨fs, he⟩ := h.runs_code
  obtain ⟨g, -, hwaits⟩ := waits_of_code he hv
  cases hwaits with
  | keep _ hn _ _ | enter _ _ _ hn _ _ | leave _ _ _ hn _ => exact hn.ge
  | begin _ _ _ _ hn _ _ => exact hn ▸ Nat.le_succ _

/-- No two frames are in one call of `wait`. -/
theorem inCall_step (h : Step (code (client seqs)) c f x c') (hv : Valid seqs c.mem.words f) (k : ℕ)
    (hi : c.total (inCall k) ≤ 1 ∧ (c.mem.words.nextCall ≤ k → c.total (inCall k) = 0)) :
    c'.total (inCall k) ≤ 1 ∧ (c'.mem.words.nextCall ≤ k → c'.total (inCall k) = 0) := by
  obtain ⟨fs, he, ht⟩ := h.total
  obtain ⟨r, hr, hr'⟩ := ht (inCall k)
  obtain ⟨g, rfl, hwaits⟩ := waits_of_code he hv
  rw [hr] at hi
  rw [hr', List.map_singleton, List.sum_singleton]
  have hsame : waitOf g = waitOf f → inCall k g = inCall k f := fun hw => by rw [inCall, inCall, callOf, callOf, hw]
  cases hwaits with
  | keep hw hn _ _ =>
    rw [hsame hw, hn]
    exact hi
  | enter w hf hg hn _ _ =>
    rw [hsame (hg.trans hf.symm), hn]
    exact hi
  | leave w _ hg hn _ =>
    have hg' : inCall k g = 0 := by rw [inCall, callOf, hg]; rfl
    rw [hg', hn]
    omega
  | begin w hf hg hc hn _ _ =>
    have hg' : inCall k g = if w.call = k then 1 else 0 := by
      rw [inCall, callOf, hg]
      exact if_congr Option.some_inj rfl rfl
    have hf' : inCall k f = 0 := by rw [inCall, callOf, hf]; rfl
    rw [hf'] at hi
    rw [hg', hn]
    split <;> omega

/-- A frame's call of `wait` is registered from the release of the mutex on, and only at its own word. -/
def Registered (m : Words) (f : Frame Words Client) : Prop := ∀ w, waitOf f = some w → w.call < m.nextCall ∧
  (∀ s, w.call ∈ m.waiting s → s = w.seq) ∧ (released f = true → w.call ∈ m.waiting w.seq)

structure CallsSound (c : Config (Shared Words) (Frame Words Client)) : Prop where
  once : ∀ k, c.total (inCall k) ≤ 1 ∧ (c.mem.words.nextCall ≤ k → c.total (inCall k) = 0)
  given : ∀ s, ∀ k ∈ c.mem.words.waiting s, k < c.mem.words.nextCall
  registered : ∀ f ∈ c.frames, Registered c.mem.words f

theorem CallsSound.apart (h : CallsSound c) (hb : Beside c f g) {w w' : WaitCall} (hf : waitOf f = some w)
    (hg : waitOf g = some w') : w'.call ≠ w.call := by
  intro he
  have hle := hb.le_total (inCall w.call)
  rw [inCall, inCall, if_pos (callOf_of_waitOf hf), if_pos ((callOf_of_waitOf hg).trans (congrArg some he))] at hle
  exact absurd (hle.trans (h.once w.call).1) (by decide)

theorem CallsSound.eq_of_call (h : CallsSound c) (hf : f ∈ c.frames) (hg : g ∈ c.frames) {k : ℕ} (hk : callOf f = some k)
    (hk' : callOf g = some k) : f = g := by
  obtain ⟨w, hw, hwk⟩ := waitOf_of_callOf hk
  obtain ⟨w', hw', hwk'⟩ := waitOf_of_callOf hk'
  by_contra hne
  obtain ⟨l, l', he⟩ := List.append_of_mem hf
  rw [he] at hg
  refine h.apart ⟨l ++ l', he ▸ List.perm_middle, ?_⟩ hw hw' (hwk'.trans hwk.symm)
  rcases List.mem_append.mp hg with hg | hg
  · exact List.mem_append_left _ hg
  · exact List.mem_append_right _ ((List.mem_cons.mp hg).resolve_left (Ne.symm hne))

theorem CallsSound.step (h : CallsSound c) (hs : Step (code (client seqs)) c f x c') (hv : Valid seqs c.mem.words f) :
    CallsSound c' := by
  obtain ⟨fs, he⟩ := hs.runs_code
  obtain ⟨g, rfl, hwaits⟩ := waits_of_code he hv
  have hreg := h.registered f hs.mem_frame
  have hupdate : ∀ {W : BitVec 64 → List ℕ} {s s' : BitVec 64} {l : List ℕ} {k : ℕ},
      k ∈ Function.update W s l s' → s' = s ∧ k ∈ l ∨ k ∈ W s' := by
    intro W s s' l k hk
    rw [Function.update_apply] at hk
    split at hk
    · exact .inl ⟨‹_›, hk⟩
    · exact .inr hk
  refine ⟨fun k => inCall_step hs hv k (h.once k), fun s k hk => ?_, ?_⟩
  · cases hwaits with
    | keep _ hn hm _ =>
      rw [hm] at hk
      exact hn ▸ h.given s k hk
    | enter w hf _ hn hm _ =>
      rw [hm] at hk
      rw [hn]
      rcases hupdate hk with ⟨-, hk⟩ | hk
      · rcases List.mem_cons.mp hk with rfl | hk
        · exact (hreg w hf).1
        · exact h.given _ k hk
      · exact h.given s k hk
    | leave w hf _ hn hm =>
      rw [hm] at hk
      rw [hn]
      rcases hupdate hk with ⟨-, hk⟩ | hk
      · exact h.given _ k (List.mem_of_mem_erase hk)
      · exact h.given s k hk
    | begin w _ _ _ hn hm _ =>
      rw [hm] at hk
      rw [hn]
      exact Nat.lt_succ_of_lt (h.given s k hk)
  · refine hs.all h.registered (fun gs hgs g' hg' => ?_) fun g' hb hg' w' hw' => ?_
    · obtain rfl : [g] = gs := by rw [he] at hgs; exact (Prod.ext_iff.mp (Option.some.inj hgs)).2
      obtain rfl := List.mem_singleton.mp hg'
      intro w' hw'
      cases hwaits with
      | keep hw hn hm hd =>
        rw [hw] at hw'
        rw [hm, hn]
        obtain ⟨hlt, hown, hin⟩ := hreg w' hw'
        exact ⟨hlt, hown, fun hr => hin ((hd w' hw').2 hr)⟩
      | enter w hf hg hn hm _ =>
        obtain rfl : w = w' := Option.some.inj (hg.symm.trans hw')
        obtain ⟨hlt, hown, -⟩ := hreg w hf
        rw [hm, hn]
        refine ⟨hlt, fun s hs => ?_, fun _ => ?_⟩
        · rcases hupdate hs with ⟨rfl, -⟩ | hk
          · rfl
          · exact hown s hk
        · rw [Function.update_self]
          exact List.mem_cons_self
      | leave w _ hg _ _ =>
        rw [hg] at hw'
        cases hw'
      | begin w _ hg hc hn hm hr =>
        obtain rfl : w = w' := Option.some.inj (hg.symm.trans hw')
        rw [hm, hn]
        refine ⟨?_, fun s hs => ?_, fun hr' => ?_⟩
        · rw [hc]
          exact Nat.lt_succ_self _
        · exact absurd (h.given s _ hs) (by rw [hc]; exact Nat.lt_irrefl _)
        · rw [hr] at hr'
          cases hr'
    · obtain ⟨hlt, hown, hin⟩ := hg' w' hw'
      cases hwaits with
      | keep _ hn hm _ =>
        rw [hm, hn]
        exact ⟨hlt, hown, hin⟩
      | enter w hf _ hn hm _ =>
        have hne := h.apart hb hf hw'
        rw [hm, hn]
        refine ⟨hlt, fun s hs => ?_, fun hr => ?_⟩
        · rcases hupdate hs with ⟨rfl, hk⟩ | hk
          · exact hown _ ((List.mem_cons.mp hk).resolve_left hne)
          · exact hown _ hk
        · rw [Function.update_apply]
          split
          next he => exact List.mem_cons_of_mem _ (he ▸ hin hr)
          next => exact hin hr
      | leave w hf _ hn hm =>
        have hne := h.apart hb hf hw'
        rw [hm, hn]
        refine ⟨hlt, fun s hs => ?_, fun hr => ?_⟩
        · rcases hupdate hs with ⟨rfl, hk⟩ | hk
          · exact hown _ (List.mem_of_mem_erase hk)
          · exact hown _ hk
        · rw [Function.update_apply]
          split
          next he => exact (List.mem_erase_of_ne hne).mpr (he ▸ hin hr)
          next => exact hin hr
      | begin w _ _ _ hn hm _ =>
        rw [hm, hn]
        exact ⟨Nat.lt_succ_of_lt hlt, hown, hin⟩

theorem callsSound_of_reaches {guard : Guard (Shared Words) (Frame Words Client)} {n : ℕ}
    (h : Reaches (code (client seqs)) guard (initial n) c) : CallsSound c := by
  induction h with
  | refl =>
    have hnone : ∀ f ∈ (initial n).frames, waitOf f = none := by
      intro f hf
      obtain ⟨t, rfl⟩ := initial_frame hf
      rfl
    refine ⟨fun k => ?_, fun s k hk => absurd hk List.not_mem_nil, fun f hf w hw => ?_⟩
    · have h0 : (initial n).total (inCall k) = 0 := by
        refine List.sum_eq_zero fun i hi => ?_
        obtain ⟨f, hf, rfl⟩ := List.mem_map.mp hi
        rw [inCall, callOf, hnone f hf]
        rfl
      exact ⟨h0.le.trans (Nat.zero_le 1), fun _ => h0⟩
    · rw [hnone f hf] at hw
      cases hw
  | step h' _ hs ih => exact ih.step hs ((mutexSound_of_reaches h').valid _ hs.mem_frame)

end Steps

end Zpc.ConcurrencyPrimitive
