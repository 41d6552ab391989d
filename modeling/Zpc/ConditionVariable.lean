import Zpc.ConditionVariableCalls

/-!
# No notification of a condition variable is lost

`notify_one` increments the epoch before it wakes a sleeper, so a thread that begins to wait
in between sees the new epoch, falls asleep above the threads that were to be notified, and
is woken in place of them. As long as this does not happen, and no epoch comes round to one
that a thread is about to compare, a notification reaches a thread that waited at the call.
-/
namespace Zpc.ConcurrencyPrimitive
open Interleaving ParkingLot

variable {seqs : BitVec 64 → Bool} {c c' : Config (Shared Words) (Frame Words Client)} {m m' : Shared Words}
  {f g : Frame Words Client} {s : BitVec 64} {all : Bool} {W : List ℕ} {x : Bool × Choice}

section Places
def Client.notifies : Client → Option (BitVec 64 × Bool × List ℕ)
  | .notifyAdd _ s all W | .notifyReturn _ s all W => some (s, all, W)
  | _ => none

def notifyOf (f : Frame Words Client) : Option (BitVec 64 × Bool × List ℕ) := match unparkOf f, f with
  | some u, _ => u.ret.notifies
  | none, .client k => k.notifies
  | none, _ => none

def choosing : Frame Words Client → Bool
  | .client (.notifyAdd _ _ _ _) | .unpark _ | .unparkLock _ | .unparkScan _ _ _ | .unparkWake _ _ _ _ _ => true
  | _ => false

/-- The thread of `g'` sleeps and is to be notified by `g`, which has still to choose and does
not know the call `p`. -/
def overtakes (m : Shared Words) (p : Park Words Client) (g g' : Frame Words Client) : Bool :=
  match notifyOf g, callOf g' with
  | some (s, all, W), some k =>
    choosing g && !all && s == p.bits && !W.contains p.call && sleeping m g' && W.contains k
  | _, _ => false

/-- The epoch with which `g` is about to compare the word. -/
def awaits (s : BitVec 64) (e : BitVec 32) (g : Frame Words Client) : Bool := match waitOf g with
  | some w => undecided g && w.seq == s && w.epoch == e
  | none => false

/-- Nobody falls asleep above the sleepers of a `notify_one` that has still to choose among
them; the epoch does not come round to one that is about to be compared; and no queue has
more nodes than `notify_all` can count. -/
def inTurn : Guard (Shared Words) (Frame Words Client) := fun c f => match f with
  | .parkCheck p => p.condition c.mem.words = true → ∀ g ∈ c.frames, ∀ g' ∈ c.frames, overtakes c.mem p g g' = false
  | .client (.notifyAdd _ s _ _) => ∀ g ∈ c.frames, awaits s (c.mem.words.word s + 1) g = false
  | .unparkLock u => (c.mem.queue u.queue).list.length ≤ 2147483647
  | _ => True

instance (c : Config (Shared Words) (Frame Words Client)) (f : Frame Words Client) : Decidable (inTurn c f) := by
  unfold inTurn
  split <;> infer_instance

def Sleeps (c : Config (Shared Words) (Frame Words Client)) (k : ℕ) : Prop :=
  ∃ f ∈ c.frames, callOf f = some k ∧ sleeping c.mem f = true

def Due (c : Config (Shared Words) (Frame Words Client)) (k : ℕ) : Prop :=
  ∃ f ∈ c.frames, ∃ w, waitOf f = some w ∧ w.call = k ∧ undecided f = true ∧ w.epoch = c.mem.words.word w.seq

structure Spared (c : Config (Shared Words) (Frame Words Client)) (k : ℕ) : Prop where
  awake : ¬ Sleeps c k
  told : ¬ Due c k

/-- One of the waiters is notified, or each of them. -/
def Notified (all : Bool) (W : List ℕ) (P : ℕ → Prop) : Prop :=
  if all then ∀ k ∈ W, P k else W ≠ [] → ∃ k ∈ W, P k

/-- The waiters of a notification are calls that have begun, and at its word. -/
def Known (c : Config (Shared Words) (Frame Words Client)) (s : BitVec 64) (W : List ℕ) : Prop :=
  ∀ k ∈ W, k < c.mem.words.nextCall ∧ ∀ f ∈ c.frames, ∀ w, waitOf f = some w → w.call = k → w.seq = s

/-- No other sleeper is above one of the waiters. -/
def Foremost (m : Shared Words) (s : BitVec 64) (W : List ℕ) : Prop :=
  (m.queue (getQueue (twangMix64 s))).list.Pairwise fun n n' => (m.node n).signaled = false →
    (m.node n).key = twangMix64 s → (m.node n').key = twangMix64 s → (m.node n').call ∈ W → (m.node n).call ∈ W

/-- What is left to do concerns only waiters that sleep. -/
structure Searching (c : Config (Shared Words) (Frame Words Client)) (s : BitVec 64) (all : Bool) (W : List ℕ) : Prop where
  told : ∀ k ∈ W, ¬ Due c k
  foremost : all = false → Foremost c.mem s W

/-- How far a notification is at each place. -/
def Tells (c : Config (Shared Words) (Frame Words Client)) (s : BitVec 64) (all : Bool) (W : List ℕ) :
    Frame Words Client → Prop
  | .client (.notifyAdd _ _ _ _) => all = false → Foremost c.mem s W
  | .unpark _ | .unparkLock _ => Searching c s all W
  | .unparkScan _ seen rest => Searching c s all W ∧ seen.length + rest.length ≤ 2147483647
  | .unparkWake _ _ last seen rest => Searching c s all W ∧ seen.length + rest.length ≤ 2147483647 ∧
      if last then all = true → rest = [] else all = true
  | .unparkErase _ _ last seen rest | .unparkUncount _ last seen rest =>
    if last then Notified all W (Spared c)
    else (Searching c s all W ∧ seen.length + rest.length ≤ 2147483647) ∧ all = true
  | _ => Notified all W (Spared c)

def Told (c : Config (Shared Words) (Frame Words Client)) (f : Frame Words Client) : Prop :=
  ∀ s all W, notifyOf f = some (s, all, W) → Known c s W ∧ Tells c s all W f

end Places

section Waiters
/-- The word of a condition variable changes only by a notification. -/
theorem epoch_step {m m' : Words} {k : Client} {nx : Next Words Client} (h : Calls seqs m k m' nx)
    (hv : ValidClient seqs m k) (hs : seqs s = true) :
    m'.word s = m.word s ∨ (∃ t all W, k = .notifyAdd t s all W) ∧ m'.word s = m.word s + 1 := by
  have hne : ∀ {a}, seqs a = false → s ≠ a := by
    rintro a ha rfl
    rw [hs] at ha
    cases ha
  cases h with
  | notifyAdd t s' all W =>
    by_cases he : s = s'
    · subst he
      exact .inr ⟨⟨t, all, W, rfl⟩, by rw [store_word, if_pos rfl]⟩
    · exact .inl (by rw [store_word, if_neg he])
  | acquireFirst t a st h => exact .inl (by rw [acquire_word, store_word, if_neg (hne hv)])
  | tryAcquire t a h => exact .inl (by rw [acquire_word, store_word, if_neg (hne hv.1)])
  | acquire t a st old n h => exact .inl (by rw [acquire_word, store_word, if_neg (hne hv.1)])
  | marked t a st old n h => exact hv.elim
  | unlockWake t a w old h h' | unlockQuiet t a w old h h' =>
    exact .inl (by rw [release_word, store_word, if_neg (hne hv.1.1)])
  | _ => exact .inl rfl

/-- An epoch that has been missed stays missed. -/
theorem due_before (h : Step (code (client seqs)) c f x c') (hm : MutexSound seqs c) (hg : inTurn c f) {k : ℕ}
    (hk : k < c.mem.words.nextCall) (hd : Due c' k) : Due c k := by
  obtain ⟨g, hg', w, hw, rfl, hu, he⟩ := hd
  have hvf := hm.valid f h.mem_frame
  rcases wait_before h hvf hg' hw with ⟨g₀, hg₀, hw₀, hu₀⟩ | hnew
  · refine ⟨g₀, hg₀, w, hw₀, rfl, hu₀ hu, ?_⟩
    have hseq := seqs_of_wait (hm.valid g₀ hg₀) hw₀
    obtain ⟨fs, hcode⟩ := h.runs_code
    rcases (acts_of_code hcode).follows with ⟨k, rfl⟩ | ⟨hword, -⟩
    · generalize hmem : c'.mem = m' at hcode he
      cases acts_of_code hcode with
      | client _ _ m₁ nx hc =>
        rcases epoch_step (calls_of_client hc) (hvf.client k rfl) hseq with hsame | ⟨⟨t, all, W, rfl⟩, hnext⟩
        · exact he.trans hsame
        · have hno := hg g₀ hg₀
          rw [awaits, hw₀] at hno
          simp [hu₀ hu, he, hnext] at hno
    · exact he.trans (congrArg (fun m : Words => m.word w.seq) hword)
  · exact absurd hk (by rw [hnew]; exact Nat.lt_irrefl _)

/-- Whoever sleeps slept before, or has just found its epoch unchanged. -/
theorem sleeps_before (h : Step (code (client seqs)) c f x c') (hm : MutexSound seqs c) (hs : Sound c) {k : ℕ}
    (hk : Sleeps c' k) : Sleeps c k ∨ Due c k := by
  obtain ⟨g, hg, hcall, hsleep⟩ := hk
  obtain ⟨n, hn, hsig⟩ := sleeping_iff.mp hsleep
  obtain ⟨fs, he⟩ := h.runs_code
  have hacts := acts_of_code he
  have hold : ∀ {g' : Frame Words Client}, g' ∈ c.frames → nodeOf g' = some n → sleeping c.mem g' = true := by
    intro g' hg' hn'
    obtain ⟨_, -, hparked⟩ := parked_of_nodeOf (hs.knows g' hg') hn'
    refine sleeping_iff.mpr ⟨n, hn', ?_⟩
    by_contra htrue
    rw [Bool.not_eq_false] at htrue
    rw [(hacts.later hparked.lt).signaled htrue] at hsig
    cases hsig
  rcases h.new_or_old he hg with hnew | hb
  · obtain ⟨p, hp, -⟩ := parked_of_nodeOf ((hs.step h).knows g hg) hn
    have hsame : ∀ {g' : Frame Words Client}, parkOf g' = some p → waitOf g' = waitOf g :=
      fun hp' => (waitOf_of_park hp').trans (waitOf_of_park hp).symm
    rcases hacts.sleeper hnew hp hn with ⟨hpf, hnf⟩ | ⟨rfl, hcond⟩
    · exact .inl ⟨f, h.mem_frame, by rw [callOf, hsame hpf]; exact hcall, hold h.mem_frame hnf⟩
    · obtain ⟨w, hw, rfl⟩ := waitOf_of_callOf hcall
      have hwf : waitOf (.parkCheck p) = some w := (hsame rfl).trans hw
      obtain ⟨t, a, -, rfl⟩ := park_of_wait (hm.valid _ h.mem_frame) rfl hwf
      exact .inr ⟨_, h.mem_frame, w, hwf, rfl, rfl, (of_decide_eq_true hcond).symm⟩
  · exact .inl ⟨g, hb.mem, hcall, hold hb.mem hn⟩

theorem Spared.step {k : ℕ} (hk : Spared c k) (h : Step (code (client seqs)) c f x c') (hm : MutexSound seqs c) (hs : Sound c)
    (hg : inTurn c f) (hlt : k < c.mem.words.nextCall) : Spared c' k :=
  ⟨fun hk' => (sleeps_before h hm hs hk').elim hk.awake hk.told, fun hk' => hk.told (due_before h hm hg hlt hk')⟩

/-- Nobody else signals nodes of a queue whose mutex a thread holds. -/
theorem listed_unsignaled (h : Step (code (client seqs)) c f x c') (hs : Sound c) {q : BitVec 64} (hq : lockOf f = some q)
    {n : ℕ} (hn : n ∈ (c.mem.queue q).list) (he : erasing f ≠ some n) : (c.mem.node n).signaled = false := by
  obtain ⟨g, hg, ht⟩ := hs.tended q n hn
  by_contra htrue
  rw [Bool.not_eq_false] at htrue
  rw [Tends, if_pos htrue] at ht
  have hgf : g ≠ f := by
    rintro rfl
    exact he ht
  obtain ⟨u, last, seen, rest, rfl⟩ : ∃ u last seen rest, g = .unparkErase u n last seen rest := by
    cases g <;> cases ht
    exact ⟨_, _, _, _, rfl⟩
  have hqueue : u.queue = q := by
    rw [← (hs.listed q n hn).2.1, (hs.knows _ hg).2.1.1]
    rfl
  exact (hs.apart (h.beside hg hgf)).1 q hq (congrArg some hqueue)

/-- A node at the word of a condition variable is that of a call of `wait`. -/
theorem listed_waiter (hm : MutexSound seqs c) (hs : Sound c) (hseq : seqs s = true) {q : BitVec 64} {n : ℕ}
    (hn : n ∈ (c.mem.queue q).list) (hkey : (c.mem.node n).key = twangMix64 s) (hsig : (c.mem.node n).signaled = false) :
    ∃ f ∈ c.frames, nodeOf f = some n ∧ ∃ w, waitOf f = some w ∧ w.seq = s ∧ w.call = (c.mem.node n).call := by
  obtain ⟨f, hf, ht⟩ := hs.tended q n hn
  rw [Tends, if_neg (by rw [hsig]; exact Bool.false_ne_true)] at ht
  obtain ⟨p, hp, hparked⟩ := parked_of_nodeOf (hs.knows f hf) ht
  have hbits : p.bits = s := twangMix64_injective (hparked.key.symm.trans hkey)
  obtain ⟨w, hw, hws, hcall⟩ := wait_of_park (hm.valid f hf) hp (by rw [hbits]; exact hseq)
  exact ⟨f, hf, ht, w, hw, hws.trans hbits, hcall.symm.trans hparked.call.symm⟩

/-- A sleeping waiter is in the queue of its word. -/
theorem listed_of_sleeps (hm : MutexSound seqs c) (hs : Sound c) (hknown : Known c s W) {k : ℕ} (hk : k ∈ W)
    (hsleep : Sleeps c k) : ∃ f ∈ c.frames, ∃ n, callOf f = some k ∧ nodeOf f = some n ∧
      n ∈ (c.mem.queue (getQueue (twangMix64 s))).list ∧ (c.mem.node n).signaled = false ∧
        (c.mem.node n).key = twangMix64 s ∧ (c.mem.node n).lotid = 0 ∧ (c.mem.node n).data = 0xffffffff ∧ (c.mem.node n).call = k := by
  obtain ⟨f, hf, hcall, hsl⟩ := hsleep
  obtain ⟨n, hn, hsig⟩ := sleeping_iff.mp hsl
  obtain ⟨w, hw, rfl⟩ := waitOf_of_callOf hcall
  obtain ⟨p, hp, hparked⟩ := parked_of_nodeOf (hs.knows f hf) hn
  obtain ⟨t, a, -, rfl⟩ := park_of_wait (hm.valid f hf) hp hw
  obtain rfl := (hknown _ hk).2 f hf w hw rfl
  exact ⟨f, hf, n, hcall, hn, hparked.listed hsig, hsig, hparked.key, hparked.lotid, hparked.data, hparked.call⟩

/-- Nobody falls asleep above the waiters of a `notify_one` that is still to choose. -/
theorem foremost_step (h : Step (code (client seqs)) c f x c') (hm : MutexSound seqs c) (hs : Sound c) (hguard : inTurn c f)
    (hg : g ∈ c.frames) (hn : notifyOf g = some (s, false, W)) (hch : choosing g = true) (hseq : seqs s = true)
    (hfore : Foremost c.mem s W) : Foremost c'.mem s W := by
  obtain ⟨fs, he⟩ := h.runs_code
  have hacts := acts_of_code he
  have hk := hs.knows f h.mem_frame
  have hlater : ∀ n ∈ (c.mem.queue (getQueue (twangMix64 s))).list, (c.mem.node n).Later (c'.mem.node n) :=
    fun n hn => hacts.later (hs.listed _ n hn).1
  -- the nodes that were there keep their order
  have hkeep : (c.mem.queue (getQueue (twangMix64 s))).list.Pairwise fun n n' => (c'.mem.node n).signaled = false →
      (c'.mem.node n).key = twangMix64 s → (c'.mem.node n').key = twangMix64 s → (c'.mem.node n').call ∈ W →
        (c'.mem.node n).call ∈ W := by
    refine List.Pairwise.imp_of_mem (fun {n n'} hn hn' hr hsig hkey hkey' hcall => ?_) hfore
    have hl := hlater n hn
    have hl' := hlater n' hn'
    rw [hl.key] at hkey
    rw [hl'.key] at hkey'
    rw [hl'.call] at hcall
    rw [hl.call]
    refine hr ?_ hkey hkey' hcall
    by_contra htrue
    rw [Bool.not_eq_false] at htrue
    rw [hl.signaled htrue] at hsig
    cases hsig
  unfold Foremost
  cases hacts.lists hk with
  | same hlist _ _ =>
    rw [hlist]
    exact hkeep
  | erase q n _ _ _ hlist _ _ =>
    rw [hlist]
    split
    · exact hkeep.sublist List.erase_sublist
    · exact hkeep
  | insert p hf hmem _ =>
    have hlist : (c'.mem.queue (getQueue (twangMix64 s))).list =
        if getQueue (twangMix64 s) = p.queue then c.mem.nextNode :: (c.mem.queue (getQueue (twangMix64 s))).list
        else (c.mem.queue (getQueue (twangMix64 s))).list := by
      rw [hmem]
      exact insertHead_list p
    rw [hlist]
    split
    swap
    · exact hkeep
    next hq =>
    refine List.pairwise_cons.mpr ⟨fun n' hn' _ hkey hkey' hcall => ?_, hkeep⟩
    have hnode : c'.mem.node c.mem.nextNode = ⟨p.key, p.lotid, p.data, false, false, p.call, 0⟩ := by
      rw [hmem, insertHead_node, Function.update_self]
    rw [hnode] at hkey ⊢
    have hbits : p.bits = s := twangMix64_injective hkey
    by_contra hno
    -- a waiter sleeps below the newcomer
    have hl' := hlater n' hn'
    rw [hl'.key] at hkey'
    rw [hl'.call] at hcall
    subst hf
    have hsig := listed_unsignaled h hs (congrArg some hq.symm) hn' (by nofun)
    obtain ⟨g', hg', hnode', w, hw, -, hwc⟩ := listed_waiter hm hs hseq hn' hkey' hsig
    have hcond : p.condition c.mem.words = true := by
      generalize c'.mem = m' at hacts hmem
      cases hacts with
      | insert _ hc => exact hc
      | refuse _ hc => exact absurd (congrArg Shared.nextNode hmem) (Nat.ne_of_lt (Nat.lt_succ_self _))
    have hover := hguard hcond g hg g' hg'
    rw [overtakes, hn, callOf_of_waitOf hw] at hover
    have hsleep : sleeping c.mem g' = true := sleeping_iff.mpr ⟨n', hnode', hsig⟩
    simp [hch, hbits, hsleep] at hover
    exact hover hno (hwc ▸ hcall)

theorem known_step (h : Step (code (client seqs)) c f x c') (hm : MutexSound seqs c) (hk : Known c s W) : Known c' s W := by
  have hvf := hm.valid f h.mem_frame
  intro k hkw
  obtain ⟨hlt, hseq⟩ := hk k hkw
  refine ⟨hlt.trans_le (nextCall_le h hvf), fun g hg w hw hwk => ?_⟩
  rcases wait_before h hvf hg hw with ⟨g₀, hg₀, hw₀, -⟩ | hnew
  · exact hseq g₀ hg₀ w hw₀ hwk
  · rw [← hwk, hnew] at hlt
    exact absurd hlt (Nat.lt_irrefl _)

end Waiters

section Notifications
theorem Notified.imp {P Q : ℕ → Prop} (h : Notified all W P) (hpq : ∀ k ∈ W, P k → Q k) : Notified all W Q := by
  cases all with
  | true => exact fun k hk => hpq k hk (h k hk)
  | false =>
    intro hw
    obtain ⟨k, hk, hp⟩ := h hw
    exact ⟨k, hk, hpq k hk hp⟩

theorem notified_of_forall {P : ℕ → Prop} (h : ∀ k ∈ W, P k) : Notified all W P := by
  cases all with
  | true => exact h
  | false =>
    intro hw
    obtain ⟨k, hk⟩ := List.exists_mem_of_ne_nil W hw
    exact ⟨k, hk, h k hk⟩

section Wake
variable {count : ℤ} {wakeMask data : BitVec 32} {seen : List (BitVec 32)}

theorem wakeFunc_takes (h : data &&& wakeMask ≠ 0) :
    wakeFunc count wakeMask seen data = .removeContinue ∨ wakeFunc count wakeMask seen data = .removeBreak := by
  unfold wakeFunc
  rw [if_neg h]
  split
  · exact .inl rfl
  · exact .inr rfl

theorem lt_of_removeContinue (h : wakeFunc count wakeMask seen data = .removeContinue) : 1 < count := by
  unfold wakeFunc at h
  split_ifs at h with h0 hpos
  omega

theorem le_of_removeBreak (h : wakeFunc count wakeMask seen data = .removeBreak) : count ≤ seen.length + 1 := by
  have hle : seen.countP (fun d => d &&& wakeMask ≠ 0) ≤ seen.length := List.countP_le_length
  unfold wakeFunc at h
  split_ifs at h with h0 hpos
  omega

theorem wakeFunc_ne : wakeFunc count wakeMask seen data ≠ .retainBreak := by
  unfold wakeFunc
  split_ifs <;> nofun

end Wake

theorem takes_notify {t : ℕ} : (notifyUnpark t s all W).Takes 0xffffffff := by
  intro seen
  have hmask : (0xffffffff : BitVec 32) &&& 0xffffffff ≠ 0 := by decide
  have htakes : wakeFunc (if all then 2147483647 else 1) 0xffffffff seen 0xffffffff = .removeContinue ∨
      wakeFunc (if all then 2147483647 else 1) 0xffffffff seen 0xffffffff = .removeBreak := wakeFunc_takes hmask
  exact htakes

theorem unpark_of_notify (hv : Valid seqs m.words f) {u : Unpark Client} (hu : unparkOf f = some u)
    (hn : notifyOf f = some (s, all, W)) : ∃ t, seqs s = true ∧ u = notifyUnpark t s all W := by
  unfold notifyOf at hn
  rw [hu] at hn
  rcases hv.unpark u hu with ⟨t, a, w, -, -, rfl⟩ | ⟨t, s', all', W', hs, rfl⟩
  · cases w <;> cases hn
  · cases hn
    exact ⟨t, hs, rfl⟩

theorem seqs_of_notify (hv : Valid seqs m.words f) (hn : notifyOf f = some (s, all, W)) : seqs s = true := by
  cases hu : unparkOf f with
  | some u =>
    obtain ⟨-, hs, -⟩ := unpark_of_notify hv hu hn
    exact hs
  | none =>
    unfold notifyOf at hn
    rw [hu] at hn
    cases f with
    | client k =>
      have hvk := hv.client k rfl
      cases k with
      | notifyAdd t s' all' W' | notifyReturn t s' all' W' =>
        cases hn
        exact hvk
      | _ => cases hn
    | _ => cases hn

theorem Searching.step (hsearch : Searching c s all W) (h : Step (code (client seqs)) c f x c') (hm : MutexSound seqs c)
    (hs : Sound c) (hguard : inTurn c f) (hknown : Known c s W) (hg : g ∈ c.frames) (hn : notifyOf g = some (s, all, W))
    (hch : all = false → choosing g = true) : Searching c' s all W := by
  refine ⟨fun k hk hd => hsearch.told k hk (due_before h hm hguard (hknown k hk).1 hd), fun ha => ?_⟩
  have hch' := hch ha
  subst ha
  exact foremost_step h hm hs hguard hg hn hch' (seqs_of_notify (hm.valid g hg) hn) (hsearch.foremost rfl)

/-- What is known of a notification stays true while others run. -/
theorem told_beside (h : Step (code (client seqs)) c f x c') (hm : MutexSound seqs c) (hs : Sound c) (hguard : inTurn c f)
    (hg : g ∈ c.frames) (ht : Told c g) : Told c' g := by
  intro s all W hn
  obtain ⟨hknown, htells⟩ := ht s all W hn
  refine ⟨known_step h hm hknown, ?_⟩
  have hspared : Notified all W (Spared c) → Notified all W (Spared c') :=
    fun hw => hw.imp fun k hk hsp => hsp.step h hm hs hguard (hknown k hk).1
  have hsearch : (all = false → choosing g = true) → Searching c s all W → Searching c' s all W :=
    fun hch hw => hw.step h hm hs hguard hknown hg hn hch
  cases g with
  | client k =>
    cases k with
    | notifyAdd t s' all' W' =>
      cases hn
      intro ha
      subst ha
      exact foremost_step h hm hs hguard hg rfl rfl (seqs_of_notify (hm.valid _ hg) rfl) (htells rfl)
    | _ => exact hspared htells
  | unpark u | unparkLock u => exact hsearch (fun _ => rfl) htells
  | unparkScan u seen rest => exact ⟨hsearch (fun _ => rfl) htells.1, htells.2⟩
  | unparkWake u n last seen rest => exact ⟨hsearch (fun _ => rfl) htells.1, htells.2⟩
  | unparkErase u n last seen rest | unparkUncount u last seen rest =>
    cases last with
    | true => exact hspared htells
    | false =>
      obtain ⟨⟨hw, hlen⟩, hall⟩ := htells
      exact ⟨⟨hsearch (fun ha => by rw [hall] at ha; cases ha) hw, hlen⟩, hall⟩
  | _ => exact hspared htells

theorem not_left_behind {u : Unpark Client} {n : ℕ} {rest : List ℕ} (h : Ahead m u rest) (hn : n ∈ (m.queue u.queue).list)
    (hm : u.Matches (m.node n)) (ht : u.Takes (m.node n).data) : n ∈ rest := by
  obtain ⟨kept, hk, hno⟩ := h
  rw [hk] at hn
  exact (List.mem_append.mp hn).resolve_left fun hn => hno n hn hm ht

/-- A sleeping waiter is still to be visited. -/
theorem ahead_of_sleeps (hm : MutexSound seqs c) (hs : Sound c) (hknown : Known c s W) {t : ℕ} {rest : List ℕ}
    (ha : Ahead c.mem (notifyUnpark t s all W) rest) {k : ℕ} (hk : k ∈ W) (hsleep : Sleeps c k) :
    ∃ n ∈ rest, (c.mem.node n).signaled = false ∧ (c.mem.node n).key = twangMix64 s ∧ (c.mem.node n).call = k := by
  obtain ⟨-, -, n, -, -, hn, hsig, hkey, hlot, hdata, hcall⟩ := listed_of_sleeps hm hs hknown hk hsleep
  exact ⟨n, not_left_behind ha hn ⟨hkey, hlot⟩ (hdata ▸ takes_notify), hsig, hkey, hcall⟩

theorem visit_notify {t n : ℕ} {data : BitVec 32} {seen : List (BitVec 32)} {rest : List ℕ} (hsearch : Searching c s all W)
    (hlen : seen.length + (n :: rest).length ≤ 2147483647) :
    Tells c s all W (visit (notifyUnpark t s all W) n data seen rest) := by
  have hlen' : (seen ++ [data]).length + rest.length ≤ 2147483647 := by
    rw [List.length_append, List.length_singleton]
    rw [List.length_cons] at hlen
    omega
  unfold visit
  split
  next => exact ⟨hsearch, hlen'⟩
  next hr =>
    refine ⟨hsearch, hlen', ?_⟩
    have hlt := lt_of_removeContinue hr
    cases all with
    | true => rfl
    | false => exact absurd hlt (by decide)
  next hr => exact absurd hr wakeFunc_ne
  next hr =>
    refine ⟨hsearch, hlen', fun ha => ?_⟩
    subst ha
    have hle : (2147483647 : ℤ) ≤ seen.length + 1 := le_of_removeBreak hr
    refine List.eq_nil_of_length_eq_zero ?_
    rw [List.length_cons] at hlen
    omega

/-- The node that a notification signals is one of a waiter, unless no waiter sleeps. -/
theorem notified_by_wake (h : Step (code (client seqs)) c f x c') (hm : MutexSound seqs c) (hs : Sound c) (hcalls : CallsSound c)
    (hguard : inTurn c f) (hknown : Known c s W) {t n : ℕ} {seen : List (BitVec 32)} {rest : List ℕ}
    (hf : f = .unparkWake (notifyUnpark t s all W) n true seen rest) (hsearch : Searching c s all W)
    (hrest : all = true → rest = []) : Notified all W (Spared c') := by
  have hm' := hm.step h
  have hs' := hs.step h
  have hknown' := known_step h hm hknown
  have htold : ∀ k ∈ W, ¬ Due c' k := fun k hk hd => hsearch.told k hk (due_before h hm hguard (hknown k hk).1 hd)
  obtain ⟨fs, he⟩ := h.runs_code
  have hk := hs.knows f h.mem_frame
  have hnew : .unparkErase (notifyUnpark t s all W) n true seen rest ∈ c'.frames := by
    refine h.mem_of_new he ?_
    subst hf
    generalize c'.mem = m' at he
    cases acts_of_code he
    exact List.mem_singleton.mpr rfl
  obtain ⟨hahead, -, hsig⟩ := hs'.knows _ hnew
  by_cases hsleep : ∃ k ∈ W, Sleeps c' k
  swap
  · exact notified_of_forall fun k hk => ⟨fun hsl => hsleep ⟨k, hk, hsl⟩, htold k hk⟩
  obtain ⟨k, hkw, hsl⟩ := hsleep
  obtain ⟨n₁, hn₁, hsig₁, hkey₁, hcall₁⟩ := ahead_of_sleeps hm' hs' hknown' hahead hkw hsl
  have hin : n₁ ∈ rest := by
    refine (List.mem_cons.mp hn₁).resolve_left ?_
    rintro rfl
    rw [hsig] at hsig₁
    cases hsig₁
  cases all with
  | true =>
    rw [hrest rfl] at hin
    cases hin
  | false =>
    subst hf
    obtain ⟨hahead₀, hkey, -⟩ := hk
    have hlist := mem_of_ahead hahead₀
    have hunsig := listed_unsignaled h hs rfl hlist (by nofun)
    -- the node signaled is above the one that still sleeps, so it is one of a waiter
    have hcall : (c.mem.node n).call ∈ W := by
      have hfore : Foremost c.mem s W := hsearch.foremost rfl
      obtain ⟨kept, hkept, -⟩ := hahead₀
      have hkept' : (c.mem.queue (getQueue (twangMix64 s))).list = kept ++ n :: rest := hkept
      have hin₁ : n₁ ∈ (c.mem.queue (getQueue (twangMix64 s))).list := by
        rw [hkept']
        exact List.mem_append_right _ (List.mem_cons_of_mem _ hin)
      have hl := (acts_of_code he).later (hs.listed _ n₁ hin₁).1
      unfold Foremost at hfore
      rw [hkept', List.pairwise_append] at hfore
      refine (List.pairwise_cons.mp hfore.2.1).1 n₁ hin hunsig hkey (hl.key.symm.trans hkey₁) ?_
      rw [← hl.call, hcall₁]
      exact hkw
    refine fun _ => ⟨_, hcall, ⟨fun hsl' => ?_, htold _ hcall⟩⟩
    obtain ⟨f₂, hf₂, n₂, hcall₂, hnode₂, -, hsig₂, -⟩ := listed_of_sleeps hm' hs' hknown' hcall hsl'
    have hvf := hm.valid _ h.mem_frame
    obtain ⟨f₃, hf₃, hnode₃, w, hw, -, hwc⟩ := listed_waiter hm hs (seqs_of_notify hvf rfl) hlist hkey hunsig
    have hf₃' : f₃ ∈ c'.frames := by
      refine h.mem_of_ne hf₃ ?_
      rintro rfl
      cases hnode₃
    have hcall₃ : callOf f₃ = some (c.mem.node n).call := (callOf_of_waitOf hw).trans (congrArg some hwc)
    obtain rfl := (hcalls.step h hvf).eq_of_call hf₂ hf₃' hcall₂ hcall₃
    obtain rfl : n = n₂ := Option.some.inj (hnode₃.symm.trans hnode₂)
    rw [hsig] at hsig₂
    cases hsig₂

/-- Before its increment a notification knows every sleeper of its word. -/
theorem foremost_waiting (hm : MutexSound seqs c) (hs : Sound c) (hcalls : CallsSound c) (hseq : seqs s = true) :
    Foremost c.mem s (c.mem.words.waiting s) := by
  refine List.pairwise_of_forall_mem_list fun n hn n' hn' hsig hkey _ _ => ?_
  obtain ⟨f, hf, hnode, w, hw, rfl, hcall⟩ := listed_waiter hm hs hseq hn hkey hsig
  rw [← hcall]
  refine (hcalls.registered f hf w hw).2.2 ?_
  cases f <;> first | rfl | cases hnode

/-- What is known of a notification that a thread begins or has just made visible. -/
theorem told_client {k : Client} (h : Step (code (client seqs)) c (.client k) x c') (hm : MutexSound seqs c) (hs : Sound c)
    (hcalls : CallsSound c) (hguard : inTurn c (.client k)) (ht : Told c (.client k)) {fs : List (Frame Words Client)}
    (he : code (client seqs) c.mem (.client k) x = some (c'.mem, fs)) : ∀ g ∈ fs, Told c' g := by
  have hvf := hm.valid _ h.mem_frame
  have hvk := hvf.client k rfl
  have hm' := hm.step h
  have hs' := hs.step h
  have hcalls' := hcalls.step h hvf
  obtain ⟨w, nx, hk, hmem, rfl⟩ : ∃ w nx, client seqs c.mem.words k x.2 = some (w, nx) ∧ c'.mem = { c.mem with words := w } ∧
      nx.frames = fs := by
    obtain ⟨r, hr, he⟩ := Option.map_eq_some_iff.mp he
    exact ⟨r.1, r.2, hr, (Prod.ext_iff.mp he).1.symm, (Prod.ext_iff.mp he).2⟩
  have hwords : c'.mem.words = w := by rw [hmem]
  clear he hmem
  intro g hg s all W hn
  cases calls_of_client hk with
  | notify t s' all' =>
    rw [List.mem_singleton.mp hg] at hn ⊢
    cases hn
    refine ⟨fun k hk => ⟨hwords ▸ hcalls.given s k hk, fun f hf w hw hwk => ?_⟩, fun _ => ?_⟩
    · exact ((hcalls'.registered f hf w hw).2.1 s (by rw [hwords, hwk]; exact hk)).symm
    · have hfore := foremost_waiting hm' hs' hcalls' hvk
      rw [hwords] at hfore
      exact hfore
  | notifyAdd t s' all' W' =>
    rw [List.mem_singleton.mp hg] at hn ⊢
    cases hn
    obtain ⟨hknown, hfore⟩ := ht _ _ _ rfl
    refine ⟨known_step h hm hknown, fun k hk hd => ?_, fun ha => ?_⟩
    · obtain ⟨g', hg', w', hw', hwk, hu, he⟩ := hd
      rcases wait_before h hvf hg' hw' with ⟨g₀, hg₀, hw₀, hu₀⟩ | hnew
      · have hseq := (hknown k hk).2 g₀ hg₀ w' hw₀ hwk
        have hno := hguard g₀ hg₀
        rw [hwords, store_word, if_pos hseq] at he
        rw [awaits, hw₀] at hno
        simp [hu₀ hu, hseq, he] at hno
      · exact absurd (hknown k hk).1 (by rw [← hwk, hnew]; exact Nat.lt_irrefl _)
    · subst ha
      exact foremost_step h hm hs hguard h.mem_frame rfl rfl hvk (hfore rfl)
  | acquireFirst t a st h' | acquire t a st old n h' =>
    rw [List.mem_singleton.mp hg] at hn
    cases st <;> cases hn
  | unlockWake t a w old h₁ h₂ | unlockQuiet t a w old h₁ h₂ =>
    rw [List.mem_singleton.mp hg] at hn
    cases w <;> cases hn
  | _ =>
    rw [List.mem_singleton.mp hg] at hn
    cases hn

/-- A search ends with a waiter signaled, or with nobody asleep that waited. -/
theorem told_search (h : Step (code (client seqs)) c f x c') (hm : MutexSound seqs c) (hs : Sound c) (hcalls : CallsSound c)
    (hguard : inTurn c f) {t : ℕ} (hu : unparkOf f = some (notifyUnpark t s all W)) (hknown : Known c s W)
    (ht : Tells c s all W f) {fs : List (Frame Words Client)}
    (he : code (client seqs) c.mem f x = some (c'.mem, fs)) : ∀ g ∈ fs, Tells c' s all W g := by
  have hm' := hm.step h
  have hs' := hs.step h
  have hknown' := known_step h hm hknown
  have hn : notifyOf f = some (s, all, W) := by unfold notifyOf; rw [hu]; rfl
  have hkeep : Notified all W (Spared c) → Notified all W (Spared c') :=
    fun hw => hw.imp fun k hk hsp => hsp.step h hm hs hguard (hknown k hk).1
  have hsearch : Searching c s all W → (all = false → choosing f = true) → Searching c' s all W :=
    fun hw hch => hw.step h hm hs hguard hknown h.mem_frame hn hch
  have hquiet : Searching c s all W → (∀ k ∈ W, ¬ Sleeps c' k) → Notified all W (Spared c') := fun hw hno =>
    notified_of_forall fun k hk => ⟨hno k hk, fun hd => hw.told k hk (due_before h hm hguard (hknown k hk).1 hd)⟩
  have hwake : ∀ {n seen rest}, f = .unparkWake (notifyUnpark t s all W) n true seen rest → Searching c s all W →
      (all = true → rest = []) → Notified all W (Spared c') :=
    fun hf hw hrest => notified_by_wake h hm hs hcalls hguard hknown hf hw hrest
  have hk := hs.knows f h.mem_frame
  have hcount := hs.count (getQueue (twangMix64 s))
  clear h hs hcalls hm
  generalize hmem : c'.mem = m' at he
  intro g hg
  cases acts_of_code he with
  | nobody u hc =>
    cases hu
    rw [List.mem_singleton.mp hg]
    refine hquiet ht fun k hk hsl => ?_
    obtain ⟨-, -, n, -, -, hin, -⟩ := listed_of_sleeps hm' hs' hknown' hk hsl
    rw [hmem] at hin
    have hpos := List.length_pos_of_mem hin
    have hzero : (c.mem.queue (getQueue (twangMix64 s))).count = 0 := hc
    omega
  | unpark u hc =>
    cases hu
    rw [List.mem_singleton.mp hg]
    exact hsearch ht fun _ => rfl
  | unparkLock u hq =>
    cases hu
    rw [List.mem_singleton.mp hg]
    refine ⟨hsearch ht fun _ => rfl, ?_⟩
    rw [List.length_nil, Nat.zero_add]
    exact hguard
  | scanned u seen =>
    cases hu
    rw [List.mem_singleton.mp hg]
    refine hquiet ht.1 fun k hkw hsl => ?_
    have hahead : Ahead c'.mem (notifyUnpark t s all W) [] := hmem ▸ hk
    obtain ⟨n, hn, -⟩ := ahead_of_sleeps hm' hs' hknown' hahead hkw hsl
    cases hn
  | visit u seen n rest hn =>
    cases hu
    rw [List.mem_singleton.mp hg]
    exact visit_notify (hsearch ht.1 fun _ => rfl) ht.2
  | pass u seen n rest hn =>
    cases hu
    rw [List.mem_singleton.mp hg]
    refine ⟨hsearch ht.1 fun _ => rfl, ?_⟩
    have hlen := ht.2
    rw [List.length_cons] at hlen
    omega
  | wake u n last seen rest =>
    cases hu
    rw [List.mem_singleton.mp hg]
    obtain ⟨hw, hlen, hlast⟩ := ht
    cases last with
    | true => exact hwake rfl hw hlast
    | false => exact ⟨⟨hsearch hw fun _ => rfl, hlen⟩, hlast⟩
  | erase u n last seen rest =>
    cases hu
    rw [List.mem_singleton.mp hg]
    cases last with
    | true => exact hkeep ht
    | false =>
      obtain ⟨⟨hw, hlen⟩, hall⟩ := ht
      exact ⟨⟨hsearch hw (fun ha => by rw [hall] at ha; cases ha), hlen⟩, hall⟩
  | proceed u seen rest =>
    cases hu
    rw [List.mem_singleton.mp hg]
    obtain ⟨⟨hw, hlen⟩, hall⟩ := ht
    exact ⟨hsearch hw (fun ha => by rw [hall] at ha; cases ha), hlen⟩
  | finish u seen rest | unparkUnlock u =>
    cases hu
    rw [List.mem_singleton.mp hg]
    exact hkeep ht
  | _ => cases hu

theorem told_new (h : Step (code (client seqs)) c f x c') (hm : MutexSound seqs c) (hs : Sound c) (hcalls : CallsSound c)
    (hguard : inTurn c f) (ht : Told c f) {fs : List (Frame Words Client)}
    (he : code (client seqs) c.mem f x = some (c'.mem, fs)) : ∀ g ∈ fs, Told c' g := by
  have hvf := hm.valid f h.mem_frame
  rcases (acts_of_code he).follows with ⟨k, rfl⟩ | ⟨-, g, rfl, hf⟩
  · exact told_client h hm hs hcalls hguard ht he
  intro g' hg' s all W hn
  obtain rfl := List.mem_singleton.mp hg'
  have hun : ∃ u, unparkOf f = some u ∧ notifyOf f = notifyOf g' := by
    cases hf with
    | inside _ hp hu hg =>
      cases huf : unparkOf f with
      | some u =>
        refine ⟨u, rfl, ?_⟩
        unfold notifyOf
        rw [hu, huf]
      | none =>
        rw [huf] at hu
        cases g' <;> first | exact absurd rfl (hg _) | cases hn | cases hu
    | parked p r hp =>
      rcases hvf.park p hp with ⟨t, a, st, -, rfl⟩ | ⟨t, a, w, -, -, rfl⟩ <;> cases hn
    | unparked u hu => exact ⟨u, hu, by unfold notifyOf; rw [hu]; rfl⟩
  obtain ⟨u, hu, hsame⟩ := hun
  rw [← hsame] at hn
  obtain ⟨t, -, rfl⟩ := unpark_of_notify hvf hu hn
  obtain ⟨hknown, htells⟩ := ht s all W hn
  exact ⟨known_step h hm hknown, told_search h hm hs hcalls hguard hu hknown htells he g' hg'⟩

theorem told_of_reaches {n : ℕ} (h : Reaches (code (client seqs)) inTurn (initial n) c) : ∀ f ∈ c.frames, Told c f := by
  induction h with
  | refl =>
    intro f hf s all W hn
    obtain ⟨t, rfl⟩ := initial_frame hf
    cases hn
  | step h' hguard hs ih =>
    have hm := mutexSound_of_reaches h'
    have hsound := sound_of_reaches initial_idle h'
    refine hs.all ih (fun fs he => ?_) fun g hb hg => told_beside hs hm hsound hguard hb.mem hg
    exact told_new hs hm hsound (callsSound_of_reaches h') hguard (ih _ hs.mem_frame) he

/-- The call does not sleep any more, whatever happens. -/
def Released (seqs : BitVec 64 → Bool) (guard : Guard (Shared Words) (Frame Words Client))
    (c : Config (Shared Words) (Frame Words Client)) (k : ℕ) : Prop :=
  ∀ c', Reaches (code (client seqs)) guard c c' → ¬ Sleeps c' k

theorem Spared.released {n k : ℕ} (h : Reaches (code (client seqs)) inTurn (initial n) c) (hk : k < c.mem.words.nextCall)
    (hspared : Spared c k) : Released seqs inTurn c k := by
  intro c' h'
  have hboth : Spared c' k ∧ k < c'.mem.words.nextCall := by
    induction h' with
    | refl => exact ⟨hspared, hk⟩
    | step h' hguard hs ih =>
      have hr := h.trans h'
      have hm := mutexSound_of_reaches hr
      exact ⟨ih.1.step hs hm (sound_of_reaches initial_idle hr) hguard ih.2,
        ih.2.trans_le (nextCall_le hs (hm.valid _ hs.mem_frame))⟩
  exact hboth.1.awake

/-- When a notification returns, one of the threads that waited at its call will not sleep any
more, or none of them for `notify_all`. -/
theorem notification_kept {n t : ℕ} (h : Reaches (code (client seqs)) inTurn (initial n) c)
    (hf : .client (.notifyReturn t s all W) ∈ c.frames) : Notified all W (Released seqs inTurn c) := by
  obtain ⟨hknown, hspared⟩ := told_of_reaches h _ hf s all W rfl
  exact Notified.imp hspared fun k hk hsp => hsp.released h (hknown k hk).1

/-- What thread `t` does to fall asleep at the word 1, with the mutex 0. -/
def fallsAsleep (t : ℕ) : List (ℕ × Bool × Choice) :=
  List.replicate 3 (t, false, ⟨.lock 0, false⟩) ++ List.replicate 12 (t, false, ⟨.wait 1 0 false, false⟩)

/-- A thread that sleeps is notified. -/
theorem notification_kept_one : ∃ c, Reaches (code (client fun a => a == 1)) inTurn (initial 2) c ∧
    .client (.notifyReturn 1 1 false [0]) ∈ c.frames ∧
      Notified false [0] (Released (fun a => a == 1) inTurn c) := by
  have he : (runs (code (client fun a => a == 1)) inTurn (initial 2)
      (fallsAsleep 0 ++ List.replicate 10 (1, false, ⟨.notify 1 false, false⟩))).map (fun c => c.threads[1]?) =
        some (some [.client (.notifyReturn 1 1 false [0])]) := rfl
  obtain ⟨c, hc, he⟩ := Option.map_eq_some_iff.mp he
  have hr := reaches_of_runs hc
  have hf : .client (.notifyReturn 1 1 false [0]) ∈ c.frames :=
    List.mem_flatten.mpr ⟨_, List.mem_of_getElem? he, List.mem_singleton.mpr rfl⟩
  exact ⟨c, hr, hf, notification_kept hr hf⟩

/-- Thread 2 begins to wait between the increment and the wake of thread 1, and is woken in
place of thread 0. -/
theorem notification_lost : ¬ ∀ c, Reaches (code (client fun a => a == 1)) free (initial 3) c →
    ∀ t s all W, .client (.notifyReturn t s all W) ∈ c.frames → Notified all W (Released (fun a => a == 1) free c) := by
  intro h
  have he : (runs (code (client fun a => a == 1)) free (initial 3)
      (fallsAsleep 0 ++ List.replicate 3 (1, false, ⟨.notify 1 false, false⟩) ++ fallsAsleep 2 ++
        List.replicate 7 (1, false, ⟨.notify 1 false, false⟩))).map
          (fun c => ((c.mem.node 0).signaled, c.threads[0]?, c.threads[1]?)) =
      some (false, some [.waiting (futexPark 0 0 ⟨1, 0, false, 0⟩) 0], some [.client (.notifyReturn 1 1 false [0])]) := rfl
  obtain ⟨c, hc, he⟩ := Option.map_eq_some_iff.mp he
  simp only [Prod.mk.injEq] at he
  obtain ⟨hsig, h0, h1⟩ := he
  obtain ⟨k, hk, hreleased⟩ := h c (reaches_of_runs hc) 1 1 false [0]
    (List.mem_flatten.mpr ⟨_, List.mem_of_getElem? h1, List.mem_singleton.mpr rfl⟩) (List.cons_ne_nil _ _)
  obtain rfl := List.mem_singleton.mp hk
  exact hreleased c .refl ⟨_, List.mem_flatten.mpr ⟨_, List.mem_of_getElem? h0, List.mem_singleton.mpr rfl⟩, rfl,
    sleeping_iff.mpr ⟨0, rfl, hsig⟩⟩

end Notifications

end Zpc.ConcurrencyPrimitive
