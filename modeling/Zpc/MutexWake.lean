import Zpc.MutexExclusion

/-!
# No contender is left asleep beside a free mutex

A thread falls asleep only while the mutex is taken. Whoever releases it then searches the
queue for a sleeper, and gives up the search only when there is none or when it has
signaled one, who is then awake.
-/
namespace Zpc.ConcurrencyPrimitive
open Interleaving ParkingLot

variable {seqs : BitVec 64 → Bool} {c c' : Config (Shared Words) (Frame Words Client)} {m m' : Shared Words}
  {f g : Frame Words Client} {fs : List (Frame Words Client)} {a : BitVec 64} {n : ℕ}

section Roles
def Client.locks : Client → Option (BitVec 64)
  | .lockLoad _ a _ | .lockTry _ a _ | .lockRetry _ a _ _ _ | .lockMark _ a _ _ _ | .lockReload _ a _ _
  | .lockCas _ a _ _ _ => some a
  | _ => none

def Contends (a : BitVec 64) (f : Frame Words Client) : Prop :=
  (∃ k, f = .client k ∧ k.locks = some a) ∨ ∃ p, parkOf f = some p ∧ p.bits = a

/-- Parked at the address, and not signaled. -/
def Asleep (a : BitVec 64) (m : Shared Words) (f : Frame Words Client) : Prop :=
  ∃ p n, parkOf f = some p ∧ nodeOf f = some n ∧ p.bits = a ∧ (m.node n).signaled = false

def Unlocking (a : BitVec 64) (f : Frame Words Client) : Prop :=
  (∃ t w, f = .client (.unlockLoad t a w)) ∨ (∃ t w old, f = .client (.unlockCas t a w old)) ∨
    ∃ u, unparkOf f = some u ∧ u.bits = a

/-- A call of `unpark` that has not yet signaled a node. -/
def searchOf : Frame Words Client → Option (Unpark Client)
  | .unpark u | .unparkLock u | .unparkScan u _ _ | .unparkWake u _ _ _ _ => some u
  | _ => none

/-- A thread that will still look after the mutex. -/
def Helper (a : BitVec 64) (m : Shared Words) (f : Frame Words Client) : Prop :=
  Contends a f ∧ ¬ Asleep a m f ∨ ∃ u, searchOf f = some u ∧ u.bits = a

/-- A free mutex with a sleeping contender has a helper. -/
def NotStranded (a : BitVec 64) (c : Config (Shared Words) (Frame Words Client)) : Prop :=
  c.mem.words.word a = 0 → (∃ f ∈ c.frames, Asleep a c.mem f) → ∃ f ∈ c.frames, Helper a c.mem f

end Roles

section Sleepers
theorem queue_of_bits {p : Park Words Client} {u : Unpark Client} (h : p.bits = u.bits) : p.queue = u.queue := by
  unfold Park.queue Unpark.queue Park.key Unpark.key
  rw [h]

/-- A sleeper is in the queue of its address. -/
theorem Asleep.listed (h : Asleep a m f) (hk : Knows m f) {u : Unpark Client} (hu : u.bits = a) :
    ∃ p n, parkOf f = some p ∧ n ∈ (m.queue u.queue).list ∧ Parked m p n ∧ p.bits = u.bits := by
  obtain ⟨p, n, hp, hn, hb, hs⟩ := h
  obtain ⟨p', hp', hparked⟩ := parked_of_nodeOf hk hn
  obtain rfl : p = p' := by rw [hp] at hp'; exact Option.some.inj hp'
  rw [← hu] at hb
  exact ⟨p, n, hp, queue_of_bits hb ▸ hparked.listed hs, hparked, hb⟩

theorem asleep_before {X : Type*} {client : ParkingLot.Client Words Client X} (h : Acts client m f m' fs) (hk : Knows m g)
    (hs : Asleep a m' g) : Asleep a m g := by
  obtain ⟨p, n, hp, hn, hb, hs⟩ := hs
  obtain ⟨_, -, hparked⟩ := parked_of_nodeOf hk hn
  refine ⟨p, n, hp, hn, hb, ?_⟩
  by_contra htrue
  rw [Bool.not_eq_false] at htrue
  rw [(h.later hparked.lt).signaled htrue] at hs
  cases hs

end Sleepers

section Steps
/-- While the mutex is free nobody falls asleep at it. -/
theorem not_insert (hv : Valid seqs m.words f) (ha : seqs a = false) (h0 : m.words.word a = 0) {p : Park Words Client}
    (hf : f = .parkCheck p) (hb : p.bits = a) : p.condition m.words = false := by
  rcases hv.park p (by rw [hf]; rfl) with ⟨t, b, st, -, rfl⟩ | ⟨t, b, w, -, hs, rfl⟩
  · obtain rfl : b = a := hb
    show decide (m.words.word b = 1) = false
    rw [h0]
    rfl
  · have hw : seqs a = true := hb ▸ hs
    rw [ha] at hw
    cases hw

/-- Before a mutex is found free it was free, unless a thread has just released it and searches the queue. -/
theorem free_before {x : Choice} {k : Client} {w : Words} {nx : Next Words Client} {m : Words}
    (h : client seqs m k x = some (w, nx)) (hv : ValidClient seqs m k) (ha : seqs a = false) (he : Exclusive m a)
    (h0 : w.word a = 0) : m.word a = 0 ∨ ∃ g ∈ nx.frames, ∃ u, searchOf g = some u ∧ u.bits = a := by
  by_cases hw : m.word a = 0
  · exact .inl hw
  have hone : m.word a = 1 := (exclusive_word he).resolve_left hw
  cases calls_of_client h with
  | unlockWake t b w old h h' =>
    rw [release_word, store_word] at h0
    split at h0
    next hab => exact .inr ⟨_, List.mem_singleton.mpr rfl, _, rfl, hab.symm⟩
    next => exact .inl h0
  | unlockQuiet t b w old hold h' =>
    rw [release_word, store_word] at h0
    split at h0
    next hab =>
      rw [← hold, ← hab, hone] at h'
      exact absurd h' (by decide)
    next => exact .inl h0
  | acquireFirst t b st h | tryAcquire t b h | acquire t b st old n h =>
    rw [acquire_word, store_word] at h0
    split at h0
    next hab =>
      first
      | cases h0
      | rw [hv.2] at h0; cases h0
    next => exact .inl h0
  | marked t b st old n h => exact hv.elim
  | notifyAdd t s all ws =>
    rw [store_word, if_neg] at h0
    · exact .inl h0
    · rintro rfl
      have hs : seqs a = true := hv
      rw [ha] at hs
      cases hs
  | _ => exact .inl h0

theorem helper_of_client {k : Client} (hk : k.locks = some a) : Helper a m (.client k) := by
  refine .inl ⟨.inl ⟨k, rfl, hk⟩, ?_⟩
  rintro ⟨p, n, hp, -⟩
  cases hp

/-- A contender in its own code goes on contending until it has the mutex. -/
theorem contender_client {x : Choice} {k : Client} {w : Words} {nx : Next Words Client} {m : Words}
    (h : client seqs m k x = some (w, nx)) (hv : ValidClient seqs m k) (hk : k.locks = some a) (h0 : w.word a = 0) :
    ∃ g ∈ nx.frames, ∀ m', Helper a m' g := by
  have hpark : ∀ {p : Park Words Client}, p.bits = a → ∀ m', Helper a m' (.parkFor p) := by
    intro p hp m'
    refine .inl ⟨.inr ⟨p, rfl, hp⟩, ?_⟩
    rintro ⟨-, n, -, hn, -⟩
    cases hn
  cases calls_of_client h with
  | lockFree t b st h | lockTaken t b st | lockLost t b st | spin t b st old n | clear t b st old n h
  | reload t b st n | lost t b st old n | mark t b st old n h h' | markLost t b st old n =>
    exact ⟨_, List.mem_singleton.mpr rfl, fun m' => helper_of_client hk⟩
  | park t b st old n h => exact ⟨_, List.mem_singleton.mpr rfl, hpark (Option.some.inj hk)⟩
  | marked t b st old n h => exact hv.elim
  | acquireFirst t b st h | acquire t b st old n h =>
    obtain rfl := Option.some.inj hk
    rw [acquire_word, store_word, if_pos rfl] at h0
    first
    | cases h0
    | rw [hv.2] at h0; cases h0
  | _ => cases hk

/-- A contender in the parking lot that is not asleep goes on contending. -/
theorem contender_park {x : Bool × Choice} (he : code (client seqs) m f x = some (m', fs)) (hv : Valid seqs m.words f)
    (hk : Knows m f) (ha : seqs a = false) (h0 : m.words.word a = 0) {p : Park Words Client} (hp : parkOf f = some p)
    (hb : p.bits = a) (hno : ¬ Asleep a m f) : ∃ g ∈ fs, Helper a m' g := by
  have hacts := acts_of_code he
  rcases hacts.follows with ⟨k, rfl⟩ | ⟨-, g, rfl, hf⟩
  · cases hp
  refine ⟨g, List.mem_singleton.mpr rfl, ?_⟩
  cases hf with
  | inside _ hpg _ _ =>
    refine .inl ⟨.inr ⟨p, hpg.trans hp, hb⟩, ?_⟩
    rintro ⟨p', n, hp', hn', hb', hs'⟩
    rcases hacts.sleeper (List.mem_singleton.mpr rfl) hp' hn' with ⟨hpf, hnf⟩ | ⟨hpf, hcond⟩
    · obtain ⟨_, -, hparked⟩ := parked_of_nodeOf hk hnf
      refine hno ⟨p', n, hpf, hnf, hb', ?_⟩
      by_contra htrue
      rw [Bool.not_eq_false] at htrue
      rw [(hacts.later hparked.lt).signaled htrue] at hs'
      cases hs'
    · rw [not_insert hv ha h0 hpf hb'] at hcond
      cases hcond
  | parked p' r hp' =>
    obtain rfl : p' = p := by rw [hp'] at hp; exact Option.some.inj hp
    rcases hv.park p' hp' with ⟨t, b, st, -, rfl⟩ | ⟨t, b, w, -, hs, rfl⟩
    · exact helper_of_client (congrArg some hb)
    · have hw : seqs a = true := hb ▸ hs
      rw [ha] at hw
      cases hw
  | unparked u hu => cases f <;> first | (cases hp; done) | cases hu

/-- A search ends with a thread awake, or with nobody asleep. -/
theorem search_step {x : Bool × Choice} (hm : MutexSound seqs c) (hs : Sound c) (hs' : Sound c')
    (h : Step (code (client seqs)) c f x c') (ha : seqs a = false) {u : Unpark Client} (hu : searchOf f = some u)
    (hb : u.bits = a) (hsleep : ∃ g ∈ c'.frames, Asleep a c'.mem g) : ∃ g ∈ c'.frames, Helper a c'.mem g := by
  obtain ⟨fs, he⟩ := h.runs_code
  have hkf := hs.knows f h.mem_frame
  have hlisted : ∃ (p : Park Words Client) (n : ℕ), ValidPark seqs p ∧ n ∈ (c'.mem.queue u.queue).list ∧
      Parked c'.mem p n ∧ p.bits = u.bits := by
    obtain ⟨g, hg, hsg⟩ := hsleep
    obtain ⟨p, n, hp, hn⟩ := hsg.listed (hs'.knows g hg) hb
    exact ⟨p, n, ((hm.step h).valid g hg).park p hp, hn⟩
  have hvu : ∃ t w, u = unlockUnpark t a w := by
    have huf : unparkOf f = some u := by cases f <;> first | exact hu | cases hu
    rcases (hm.valid f h.mem_frame).unpark u huf with ⟨t, b, w, -, -, rfl⟩ | ⟨t, s, all, ws, hseq, rfl⟩
    · obtain rfl : b = a := hb
      exact ⟨t, w, rfl⟩
    · have hw : seqs a = true := hb ▸ hseq
      rw [ha] at hw
      cases hw
  have hnew : ∀ {g}, g ∈ fs → g ∈ c'.frames := fun hg => h.mem_of_new he hg
  have hsearch : ∀ {g}, g ∈ fs → searchOf g = some u → ∃ g ∈ c'.frames, Helper a c'.mem g :=
    fun hg hu' => ⟨_, hnew hg, .inr ⟨u, hu', hb⟩⟩
  have hcount := hs.count u.queue
  generalize hm' : c'.mem = m' at he hlisted hsearch ⊢
  cases acts_of_code he with
  | nobody u hc =>
    cases hu
    obtain ⟨p, n, -, hn, -⟩ := hlisted
    rw [hc] at hcount
    have hlen := List.length_pos_of_mem hn
    omega
  | unpark u hc =>
    cases hu
    exact hsearch (List.mem_singleton.mpr rfl) rfl
  | unparkLock u hq =>
    cases hu
    exact hsearch (List.mem_singleton.mpr rfl) rfl
  | scanned u seen =>
    cases hu
    obtain ⟨t, w, rfl⟩ := hvu
    obtain ⟨p, n, hvp, hn, hparked, hbits⟩ := hlisted
    obtain ⟨kept, hk, hno⟩ := hkf
    rw [List.append_nil] at hk
    refine absurd (fun _ => .inr rfl) (hno n (hk ▸ hn) ⟨hparked.key.trans ?_, hparked.lotid.trans ?_⟩)
    · exact congrArg twangMix64 hbits
    · rcases hvp with ⟨_, _, _, -, rfl⟩ | ⟨_, _, _, -, -, rfl⟩ <;> rfl
  | visit u seen n rest hn =>
    cases hu
    obtain ⟨t, w, rfl⟩ := hvu
    exact hsearch (List.mem_singleton.mpr rfl) rfl
  | pass u seen n rest hn =>
    cases hu
    exact hsearch (List.mem_singleton.mpr rfl) rfl
  | wake u n last seen rest =>
    cases hu
    obtain ⟨hahead, hmatch⟩ := hkf
    have hin := mem_of_ahead hahead
    obtain ⟨g, hg, ht⟩ := hs.tended _ n hin
    have hgf : g ≠ .unparkWake u n last seen rest := by
      rintro rfl
      unfold Tends at ht
      split at ht <;> cases ht
    have hg' := h.mem_of_ne hg hgf
    have hnode : nodeOf g = some n := by
      unfold Tends at ht
      split at ht
      next =>
        -- whoever is about to erase a node holds the mutex of its queue
        obtain ⟨u', last', seen', rest', rfl⟩ : ∃ u' last' seen' rest', g = .unparkErase u' n last' seen' rest' := by
          cases g <;> cases ht
          exact ⟨_, _, _, _, rfl⟩
        have hqueue : u'.queue = u.queue := congrArg getQueue ((hs.knows _ hg).2.1.1.symm.trans hmatch.1)
        exact absurd (congrArg some hqueue) ((hs.apart (h.beside hg hgf)).1 _ rfl)
      next => exact ht
    obtain ⟨p, hp, hparked⟩ := parked_of_nodeOf (hs.knows g hg) hnode
    refine ⟨g, hg', .inl ⟨.inr ⟨p, hp, ?_⟩, ?_⟩⟩
    · exact (twangMix64_injective (hparked.key.symm.trans hmatch.1)).trans hb
    · rintro ⟨p', n', -, hn', -, hs'⟩
      obtain rfl : n = n' := by rw [hnode] at hn'; exact Option.some.inj hn'
      rw [onNode_node, if_pos rfl] at hs'
      cases hs'
  | _ => cases hu

theorem notStranded_step {x : Bool × Choice} (hm : MutexSound seqs c) (hs : Sound c)
    (h : Step (code (client seqs)) c f x c') (ha : seqs a = false) (hi : NotStranded a c) : NotStranded a c' := by
  have hs' := hs.step h
  intro h0' hsleep'
  have hvf := hm.valid f h.mem_frame
  have hkf := hs.knows f h.mem_frame
  obtain ⟨fs, he⟩ := h.runs_code
  have hacts := acts_of_code he
  have hnew : ∀ {g}, g ∈ fs → g ∈ c'.frames := fun hg => h.mem_of_new he hg
  -- the mutex was free already, or has just been released
  have hfree : c.mem.words.word a = 0 ∨ ∃ g ∈ c'.frames, Helper a c'.mem g := by
    rcases hacts.follows with ⟨k, rfl⟩ | ⟨hw, -⟩
    · generalize hmem : c'.mem = m' at he h0' ⊢
      cases acts_of_code he with
      | client _ _ w nx hk =>
        rcases free_before hk (hvf.client k rfl) ha (hm.exclusive a ha) h0' with h0 | ⟨g, hg, hu⟩
        · exact .inl h0
        · exact .inr ⟨g, hnew hg, .inr hu⟩
    · exact .inl (hw ▸ h0')
  rcases hfree with h0 | hdone
  swap
  · exact hdone
  -- whoever sleeps now slept before
  have hsleep : ∃ g ∈ c.frames, Asleep a c.mem g := by
    obtain ⟨g, hg, hsg⟩ := hsleep'
    rcases h.new_or_old he hg with hg | hb
    · obtain ⟨p, n, hp, hn, hb, hsig⟩ := hsg
      rcases hacts.sleeper hg hp hn with ⟨hpf, hnf⟩ | ⟨hpf, hcond⟩
      · exact ⟨f, h.mem_frame, asleep_before hacts hkf ⟨p, n, hpf, hnf, hb, hsig⟩⟩
      · rw [not_insert hvf ha h0 hpf hb] at hcond
        cases hcond
    · exact ⟨g, hb.mem, asleep_before hacts (hs.knows g hb.mem) hsg⟩
  obtain ⟨g, hg, hhelp⟩ := hi h0 hsleep
  by_cases hgf : g = f
  · subst hgf
    rcases hhelp with ⟨⟨k, rfl, hk⟩ | ⟨p, hp, hb⟩, hno⟩ | ⟨u, hu, hb⟩
    · generalize hmem : c'.mem = m' at he h0' ⊢
      cases acts_of_code he with
      | client _ _ w nx hc =>
        obtain ⟨g, hg, hhelp⟩ := contender_client hc (hvf.client k rfl) hk h0'
        exact ⟨g, hnew hg, hhelp _⟩
    · obtain ⟨g, hg, hhelp⟩ := contender_park he hvf hkf ha h0 hp hb hno
      exact ⟨g, hnew hg, hhelp⟩
    · exact search_step hm hs hs' h ha hu hb hsleep'
  · refine ⟨g, h.mem_of_ne hg hgf, hhelp.imp_left fun hc => ⟨hc.1, fun hs' => hc.2 ?_⟩⟩
    exact asleep_before hacts (hs.knows g hg) hs'

/-- At most one thread holds a mutex, and when it is free, no thread is unlocking it and a
contender sleeps at it, some contender is awake. -/
theorem no_stranded_contender {guard : Guard (Shared Words) (Frame Words Client)} {n : ℕ} (ha : seqs a = false)
    (h : Reaches (code (client seqs)) guard (initial n) c) :
    (c.mem.words.holders a).length ≤ 1 ∧
      ¬ (c.mem.words.word a = 0 ∧ (∀ f ∈ c.frames, ¬ Unlocking a f) ∧ (∃ f ∈ c.frames, Asleep a c.mem f) ∧
        ∀ f ∈ c.frames, Contends a f → Asleep a c.mem f) := by
  have hm := mutexSound_of_reaches h
  constructor
  · rcases hm.exclusive a ha with ⟨-, hh⟩ | ⟨-, t, hh⟩
    · rw [hh]
      exact Nat.zero_le 1
    · rw [hh]
      exact le_rfl
  · have hi : NotStranded a c := by
      induction h with
      | refl =>
        rintro - ⟨f, hf, p, n, hp, -⟩
        obtain ⟨t, rfl⟩ := initial_frame hf
        cases hp
      | step h' _ hs ih =>
        exact notStranded_step (mutexSound_of_reaches h') (sound_of_reaches initial_idle h') hs ha
          (ih (mutexSound_of_reaches h'))
    rintro ⟨h0, hunlock, hsleep, hall⟩
    obtain ⟨f, hf, ⟨hc, hno⟩ | ⟨u, hu, hb⟩⟩ := hi h0 hsleep
    · exact hno (hall f hf hc)
    · refine hunlock f hf (.inr (.inr ⟨u, ?_, hb⟩))
      cases f <;> first | exact hu | cases hu

def spinning (spinCount : ℕ) : Config (Shared Words) (Frame Words Client) :=
  ⟨start ((Words.store ⟨fun _ => 0, fun _ => [], fun _ => [], 0⟩ 0 1).acquire 0 0),
    [[.client (.idle 0)], [.client (.lockRetry 1 0 none 1 spinCount)]]⟩

theorem reaches_spinning {k : ℕ} (hk : k ≤ 128) :
    Reaches (code (client fun _ => false)) free (initial 2) (spinning k) := by
  induction k with
  | zero =>
    have he : runs (code (client fun _ => false)) free (initial 2) (List.replicate 3 (0, false, ⟨.lock 0, false⟩) ++
        List.replicate 2 (1, false, ⟨.lock 0, false⟩)) = some (spinning 0) := rfl
    exact reaches_of_runs he
  | succ k ih =>
    have hspin : code (client fun _ => false) (spinning k).mem (.client (.lockRetry 1 0 none 1 k)) (false, ⟨.lock 0, false⟩) =
        some ((spinning k).mem, [.client (.lockReload 1 0 none (k+1))]) := by
      have hbit : (1 : BitVec 32) &&& kMask ≠ 0 := by decide
      simp only [code, client, if_pos hbit, if_pos hk]
      rfl
    have hreload : code (client fun _ => false) (spinning k).mem (.client (.lockReload 1 0 none (k+1)))
        (false, ⟨.lock 0, false⟩) = some ((spinning k).mem, [.client (.lockRetry 1 0 none 1 (k+1))]) := rfl
    have hr := ih (Nat.le_of_succ_le hk)
    have ht : (spinning k).threads[1]? = some [.client (.lockRetry 1 0 none 1 k)] := rfl
    have hs := step_of_stack ht hspin
    have ht' : ((spinning k).threads.set 1 [.client (.lockReload 1 0 none (k+1))])[1]? =
      some [.client (.lockReload 1 0 none (k+1))] := rfl
    exact (hr.step trivial hs).step trivial (step_of_stack ht' hreload)

/-- A mutex just released, its contender asleep after 128 rounds of spinning. -/
theorem no_stranded_contender_two : ∃ c, Reaches (code (client fun _ => false)) free (initial 2) c ∧
    (∃ f ∈ c.frames, Asleep 0 c.mem f) ∧ (c.mem.words.holders 0).length ≤ 1 ∧
      ¬ (c.mem.words.word 0 = 0 ∧ (∀ f ∈ c.frames, ¬ Unlocking 0 f) ∧ (∃ f ∈ c.frames, Asleep 0 c.mem f) ∧
        ∀ f ∈ c.frames, Contends 0 f → Asleep 0 c.mem f) := by
  have he : (runs (code (client fun _ => false)) free (spinning 128)
      (List.replicate 7 (1, false, ⟨.lock 0, false⟩) ++ List.replicate 3 (0, false, ⟨.unlock 0, false⟩))).map
          (fun c => ((c.mem.node 0).signaled, c.mem.words.word 0, c.threads)) =
      some (false, 0, [[.unpark (unlockUnpark 0 0 none)], [.waiting (lockPark 1 0 none 1) 0]]) := rfl
  obtain ⟨c, hc, he⟩ := Option.map_eq_some_iff.mp he
  simp only [Prod.mk.injEq] at he
  have hr := (reaches_spinning le_rfl).trans (reaches_of_runs hc)
  refine ⟨c, hr, ⟨.waiting (lockPark 1 0 none 1) 0, ?_, lockPark 1 0 none 1, 0, rfl, rfl, rfl, he.1⟩,
    no_stranded_contender rfl hr⟩
  rw [Config.frames, he.2.2]
  exact List.mem_cons_of_mem _ List.mem_cons_self

end Steps

end Zpc.ConcurrencyPrimitive
