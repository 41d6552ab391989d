import Zpc.ConcurrencyPrimitive
import Zpc.ParkingLotSound

/-!
# Mutual exclusion

The word of a mutex is 1 exactly while one thread holds it. Every thread is at one place,
so the thread that is about to unlock a mutex is the one that holds it.
-/
namespace Zpc.ConcurrencyPrimitive
open Interleaving ParkingLot

variable {seqs : BitVec 64 → Bool} {c c' : Config (Shared Words) (Frame Words Client)} {m m' : Words}
  {f : Frame Words Client} {k : Client} {nx : Next Words Client} {x : Choice} {a : BitVec 64}

/-- What one action on the words does. -/
inductive Calls (seqs : BitVec 64 → Bool) (m : Words) : Client → Words → Next Words Client → Prop
  | beginLock (t a) (ha : seqs a = false) : Calls seqs m (.idle t) m (.run (.lockLoad t a none))
  | beginUnlock (t a) (ha : seqs a = false) (ht : t ∈ m.holders a) : Calls seqs m (.idle t) m (.run (.unlockLoad t a none))
  | beginTry (t a) (ha : seqs a = false) : Calls seqs m (.idle t) m (.run (.tryLoad t a))
  | beginWait (t s a timed) (hs : seqs s = true) (ha : seqs a = false) (ht : t ∈ m.holders a) :
      Calls seqs m (.idle t) m (.run (.waitLoad t s a timed))
  | beginNotify (t s all) (hs : seqs s = true) : Calls seqs m (.idle t) m (.run (.notify t s all))
  | lockFree (t a st) (h : m.word a = 0) : Calls seqs m (.lockLoad t a st) m (.run (.lockTry t a st))
  | lockTaken (t a st) : Calls seqs m (.lockLoad t a st) m (.run (.lockRetry t a st (m.word a) 0))
  | acquireFirst (t a st) (h : m.word a = 0) :
      Calls seqs m (.lockTry t a st) ((m.store a (0 ||| kMask)).acquire t a) (.run (afterLock t st))
  | lockLost (t a st) : Calls seqs m (.lockTry t a st) m (.run (.lockRetry t a st (m.word a) 0))
  | spin (t a st old n) : Calls seqs m (.lockRetry t a st old n) m (.run (.lockReload t a st (n + 1)))
  | mark (t a st old n) (h : old &&& kMask ≠ 0) (h' : old ||| kMask ≠ old) :
      Calls seqs m (.lockRetry t a st old n) m (.run (.lockMark t a st old (n + 1)))
  | park (t a st old n) (h : old &&& kMask ≠ 0) :
      Calls seqs m (.lockRetry t a st old n) m (.park (lockPark t a st (old ||| kMask)))
  | clear (t a st old n) (h : old &&& kMask = 0) : Calls seqs m (.lockRetry t a st old n) m (.run (.lockCas t a st old n))
  | marked (t a st old n) (h : m.word a = old) : Calls seqs m (.lockMark t a st old n) (m.store a (old ||| kMask))
      (.park (lockPark t a st (old ||| kMask)))
  | markLost (t a st old n) : Calls seqs m (.lockMark t a st old n) m (.run (.lockRetry t a st (m.word a) n))
  | reload (t a st n) : Calls seqs m (.lockReload t a st n) m (.run (.lockRetry t a st (m.word a) n))
  | acquire (t a st old n) (h : m.word a = old) :
      Calls seqs m (.lockCas t a st old n) ((m.store a (old ||| kMask)).acquire t a) (.run (afterLock t st))
  | lost (t a st old n) : Calls seqs m (.lockCas t a st old n) m (.run (.lockRetry t a st (m.word a) n))
  | unlockLoad (t a w) : Calls seqs m (.unlockLoad t a w) m (.run (.unlockCas t a w (m.word a)))
  | unlockWake (t a w old) (h : m.word a = old) (h' : old &&& kMask ≠ 0) :
      Calls seqs m (.unlockCas t a w old) ((m.store a (old &&& ~~~kMask)).release t a w) (.unpark (unlockUnpark t a w))
  | unlockQuiet (t a w old) (h : m.word a = old) (h' : old &&& kMask = 0) :
      Calls seqs m (.unlockCas t a w old) ((m.store a (old &&& ~~~kMask)).release t a w) (.run (afterUnlock t a w))
  | unlockLost (t a w old) : Calls seqs m (.unlockCas t a w old) m (.run (.unlockCas t a w (m.word a)))
  | tryLoad (t a) : Calls seqs m (.tryLoad t a) m (.run (.tryCas t a (m.word a)))
  | tryTaken (t a old) (h : old ≠ 0) : Calls seqs m (.tryCas t a old) m (.run (.idle t))
  | tryAcquire (t a) (h : m.word a = 0) :
      Calls seqs m (.tryCas t a 0) ((m.store a (0 ||| kMask)).acquire t a) (.run (.idle t))
  | tryLost (t a old) : Calls seqs m (.tryCas t a old) m (.run (.tryCas t a (m.word a)))
  | waitLoad (t s a timed) : Calls seqs m (.waitLoad t s a timed) { m with nextCall := m.nextCall + 1 }
      (.run (.unlockLoad t a (some ⟨s, m.word s, timed, m.nextCall⟩)))
  | futexWait (t a w) : Calls seqs m (.futexWait t a w) m (.park (futexPark t a w))
  | futexReturn (t a w r st) : Calls seqs m (.futexReturn t a w r) (m.leave w) (.run (.lockLoad t a (some st)))
  | waitReturn (t st) : Calls seqs m (.waitReturn t st) m (.run (.idle t))
  | notify (t s all) : Calls seqs m (.notify t s all) m (.run (.notifyAdd t s all (m.waiting s)))
  | notifyAdd (t s all waiters) : Calls seqs m (.notifyAdd t s all waiters) (m.store s (m.word s + 1))
      (.unpark (notifyUnpark t s all waiters))
  | notifyReturn (t s all waiters) : Calls seqs m (.notifyReturn t s all waiters) m (.run (.idle t))

theorem calls_of_begin {t : ℕ} {op : Op} (h : begin seqs m t op = some k) : Calls seqs m (.idle t) m (.run k) := by
  cases op <;> simp only [begin, Bool.not_eq_true'] at h <;> split at h <;> cases h
  case lock hs => exact .beginLock t _ (Bool.eq_false_iff.mpr hs)
  case unlock hs => exact .beginUnlock t _ hs.1 hs.2
  case tryLock hs => exact .beginTry t _ (Bool.eq_false_iff.mpr hs)
  case wait hs => exact .beginWait t _ _ _ hs.1 hs.2.1 hs.2.2
  case notify hs => exact .beginNotify t _ _ hs

theorem calls_of_client (h : client seqs m k x = some (m', nx)) : Calls seqs m k m' nx := by
  cases k with
  | idle t =>
    obtain ⟨k, hk, h⟩ := Option.map_eq_some_iff.mp h
    cases h
    exact calls_of_begin hk
  | lockLoad t a st =>
    cases h
    split
    · exact .lockFree t a st ‹_›
    · exact .lockTaken t a st
  | lockTry t a st =>
    simp only [client] at h
    split at h <;> cases h
    next hc => exact .acquireFirst t a st hc.1
    next => exact .lockLost t a st
  | lockRetry t a st old n =>
    simp only [client] at h
    split_ifs at h with hbit hspin hmark <;> cases h
    · exact .spin t a st old n
    · exact .mark t a st old n hbit hmark
    · exact .park t a st old n hbit
    · exact .clear t a st old n (not_not.mp hbit)
  | lockMark t a st old n =>
    simp only [client] at h
    split at h <;> cases h
    next hc => exact .marked t a st old n hc.1
    next => exact .markLost t a st old n
  | lockCas t a st old n =>
    simp only [client] at h
    split at h <;> cases h
    next hc => exact .acquire t a st old n hc.1
    next => exact .lost t a st old n
  | unlockCas t a w old =>
    simp only [client] at h
    split at h <;> cases h
    next hc =>
      split
      · exact .unlockWake t a w old hc.1 ‹_›
      · exact .unlockQuiet t a w old hc.1 (not_not.mp ‹_›)
    next => exact .unlockLost t a w old
  | tryCas t a old =>
    simp only [client] at h
    split_ifs at h with h0 hc <;> cases h
    · exact .tryTaken t a old h0
    · obtain rfl := not_not.mp h0
      exact .tryAcquire t a hc.1
    · exact .tryLost t a old
  | _ =>
    cases h
    constructor

section Places
def Client.thread : Client → ℕ
  | .idle t | .lockLoad t _ _ | .lockTry t _ _ | .lockRetry t _ _ _ _ | .lockMark t _ _ _ _ | .lockReload t _ _ _
  | .lockCas t _ _ _ _ | .unlockLoad t _ _ | .unlockCas t _ _ _ | .tryLoad t _ | .tryCas t _ _ | .waitLoad t _ _ _
  | .futexWait t _ _ | .futexReturn t _ _ _ | .waitReturn t _ | .notify t _ _ | .notifyAdd t _ _ _
  | .notifyReturn t _ _ _ => t

/-- The thread that a frame belongs to. -/
def threadOf (f : Frame Words Client) : ℕ := match parkOf f, unparkOf f, f with
  | some p, _, _ => (p.ret .skip).thread
  | none, some u, _ => u.ret.thread
  | none, none, .client k => k.thread
  | none, none, _ => 0

def ofThread (t : ℕ) (f : Frame Words Client) : ℕ := if threadOf f = t then 1 else 0

@[simp] theorem thread_afterLock (t : ℕ) (st : Option CvStatus) : (afterLock t st).thread = t := by cases st <;> rfl

@[simp] theorem thread_afterUnlock (t : ℕ) (a : BitVec 64) (w : Option WaitCall) : (afterUnlock t a w).thread = t := by
  cases w <;> rfl

theorem Calls.thread (h : Calls seqs m k m' nx) : ∃ g, nx.frames = [g] ∧ threadOf g = k.thread := by
  cases h <;> exact ⟨_, rfl, by first | rfl | exact thread_afterLock _ _ | exact thread_afterUnlock _ _ _⟩

/-- The calls of `parkFor` that there are. -/
def ValidPark (seqs : BitVec 64 → Bool) (p : Park Words Client) : Prop :=
  (∃ t a st, seqs a = false ∧ p = lockPark t a st 1) ∨
    ∃ t a w, seqs a = false ∧ seqs w.seq = true ∧ p = futexPark t a w

def ValidUnpark (seqs : BitVec 64 → Bool) (u : Unpark Client) : Prop :=
  (∃ t a w, seqs a = false ∧ (∀ x ∈ w, seqs x.seq = true) ∧ u = unlockUnpark t a w) ∨
    ∃ t s all waiters, seqs s = true ∧ u = notifyUnpark t s all waiters

/-- What a thread knows of the words at each place. -/
def ValidClient (seqs : BitVec 64 → Bool) (m : Words) : Client → Prop
  | .idle _ | .waitReturn _ _ => True
  | .lockLoad _ a _ | .lockTry _ a _ | .lockReload _ a _ _ | .tryLoad _ a => seqs a = false
  | .lockRetry _ a _ old _ | .tryCas _ a old => seqs a = false ∧ (old = 0 ∨ old = 1)
  | .lockCas _ a _ old _ => seqs a = false ∧ old = 0
  | .lockMark _ _ _ _ _ => False
  | .unlockLoad t a w | .unlockCas t a w _ => (seqs a = false ∧ ∀ x ∈ w, seqs x.seq = true) ∧ t ∈ m.holders a
  | .waitLoad t s a _ => (seqs s = true ∧ seqs a = false) ∧ t ∈ m.holders a
  | .futexWait _ a w | .futexReturn _ a w _ => seqs a = false ∧ seqs w.seq = true
  | .notify _ s _ | .notifyAdd _ s _ _ | .notifyReturn _ s _ _ => seqs s = true

structure Valid (seqs : BitVec 64 → Bool) (m : Words) (f : Frame Words Client) : Prop where
  park : ∀ p, parkOf f = some p → ValidPark seqs p
  unpark : ∀ u, unparkOf f = some u → ValidUnpark seqs u
  client : ∀ k, f = .client k → ValidClient seqs m k

theorem valid_client (h : ValidClient seqs m k) : Valid seqs m (.client k) := by
  refine ⟨fun p hp => ?_, fun u hu => ?_, fun k' hk => ?_⟩
  · cases hp
  · cases hu
  · cases hk
    exact h

def Exclusive (m : Words) (a : BitVec 64) : Prop :=
  m.word a = 0 ∧ m.holders a = [] ∨ m.word a = 1 ∧ ∃ t, m.holders a = [t]

structure MutexSound (seqs : BitVec 64 → Bool) (c : Config (Shared Words) (Frame Words Client)) : Prop where
  once : ∀ t, c.total (ofThread t) ≤ 1
  exclusive : ∀ a, seqs a = false → Exclusive c.mem.words a
  valid : ∀ f ∈ c.frames, Valid seqs c.mem.words f

end Places

section Words
variable {t : ℕ} {a' : BitVec 64} {v : BitVec 32} {w : Option WaitCall}

@[simp] theorem store_word : (m.store a v).word a' = if a' = a then v else m.word a' := Function.update_apply _ _ _ _

@[simp] theorem store_holders : (m.store a v).holders = m.holders := rfl

@[simp] theorem acquire_word : (m.acquire t a).word = m.word := rfl

@[simp] theorem acquire_holders :
    (m.acquire t a).holders a' = if a' = a then t :: m.holders a' else m.holders a' := by
  refine (Function.update_apply _ _ _ _).trans ?_
  split
  next h => rw [h]
  next => rfl

@[simp] theorem release_word : (m.release t a w).word = m.word := by cases w <;> rfl

@[simp] theorem release_holders :
    (m.release t a w).holders a' = if a' = a then (m.holders a').erase t else m.holders a' := by
  have h : (m.release t a w).holders = Function.update m.holders a ((m.holders a).erase t) := by cases w <;> rfl
  rw [h, Function.update_apply]
  split
  next h => rw [h]
  next => rfl

end Words

section Steps
/-- How an action changes who holds a mutex. -/
inductive Holds (m : Words) (k : Client) (m' : Words) : Prop
  | same (hw : ∀ a, m'.word a = m.word a ∨ ∃ t all ws, k = .notifyAdd t a all ws) (hh : m'.holders = m.holders)
  | acquire (t a) (h : m.word a = 0) (hm : m' = (m.store a 1).acquire t a)
  | release (t a w) (hk : k = .unlockCas t a w (m.word a)) (hm : m' = (m.store a (m.word a &&& ~~~kMask)).release t a w)

theorem Calls.holds (h : Calls seqs m k m' nx) (hv : ValidClient seqs m k) : Holds m k m' := by
  cases h with
  | acquireFirst t a st h | tryAcquire t a h => exact .acquire t a h rfl
  | acquire t a st old n h =>
    obtain ⟨-, rfl⟩ := hv
    exact .acquire t a h rfl
  | marked t a st old n h => exact hv.elim
  | unlockWake t a w old h h' | unlockQuiet t a w old h h' =>
    subst h
    exact .release t a w rfl rfl
  | notifyAdd t s all waiters =>
    refine .same (fun a => ?_) rfl
    by_cases ha : a = s
    · exact .inr ⟨t, all, waiters, by rw [ha]⟩
    · exact .inl (by rw [store_word, if_neg ha])
  | _ => exact .same (fun _ => .inl rfl) rfl

theorem exclusive_step (h : Calls seqs m k m' nx) (hv : ValidClient seqs m k) (ha : seqs a = false)
    (he : Exclusive m a) : Exclusive m' a := by
  cases h.holds hv with
  | same hw hh =>
    rw [Exclusive, hh]
    rcases hw a with hw | ⟨t, all, ws, rfl⟩
    · rw [hw]
      exact he
    · exact absurd (show seqs a = true from hv) (by rw [ha]; exact Bool.noConfusion)
  | acquire t b h0 hm =>
    rw [hm, Exclusive, acquire_word, store_word, acquire_holders, store_holders]
    split
    next hab =>
      rcases he with ⟨-, hh⟩ | ⟨h1, -⟩
      · exact .inr ⟨rfl, t, by rw [hh]⟩
      · rw [hab, h0] at h1
        cases h1
    next => exact he
  | release t b w hk hm =>
    rw [hm, Exclusive, release_word, store_word, release_holders, store_holders]
    split
    next hab =>
      subst hab
      rw [hk] at hv
      have ht : t ∈ m.holders a := hv.2
      rcases he with ⟨-, hh⟩ | ⟨h1, t', hh⟩
      · rw [hh] at ht
        cases ht
      · rw [hh, List.mem_singleton] at ht
        rw [hh, h1, ht]
        exact .inl ⟨rfl, List.erase_cons_head _ _⟩
    next => exact he

theorem exclusive_word (h : Exclusive m a) : m.word a = 0 ∨ m.word a = 1 := h.imp And.left And.left

/-- What a thread knows at its next place. -/
theorem Calls.valid (h : Calls seqs m k m' nx) (hv : ValidClient seqs m k) (he : ∀ a, seqs a = false → Exclusive m a) :
    ∀ g ∈ nx.frames, Valid seqs m' g := by
  have hone : ∀ old : BitVec 32, old = 0 ∨ old = 1 → old &&& kMask ≠ 0 → old ||| kMask = 1 := by
    rintro old (rfl | rfl) h
    · exact absurd rfl h
    · rfl
  have hafter : ∀ (t : ℕ) (st : Option CvStatus), Valid seqs m' (.client (afterLock t st)) := by
    intro t st
    cases st <;> exact valid_client trivial
  have hpark : ∀ {p}, ValidPark seqs p → Valid seqs m' (.parkFor p) := by
    intro p hp
    refine ⟨fun p' h => ?_, fun u h => ?_, fun k h => ?_⟩ <;> cases h
    exact hp
  have hunpark : ∀ {u}, ValidUnpark seqs u → Valid seqs m' (.unpark u) := by
    intro u hu
    refine ⟨fun p h => ?_, fun u' h => ?_, fun k h => ?_⟩ <;> cases h
    exact hu
  have hclient : ∀ {k}, ValidClient seqs m' k → ∀ g ∈ (Next.run k : Next Words Client).frames, Valid seqs m' g := by
    intro k hk g hg
    rw [List.mem_singleton.mp hg]
    exact valid_client hk
  cases h with
  | beginLock t a ha | beginTry t a ha => exact hclient ha
  | beginUnlock t a ha ht => exact hclient ⟨⟨ha, fun x hx => absurd hx (Option.not_mem_none x)⟩, ht⟩
  | beginWait t s a timed hs ha ht => exact hclient ⟨⟨hs, ha⟩, ht⟩
  | beginNotify t s all hs => exact hclient hs
  | lockFree t a st h | lockTaken t a st | lockLost t a st | reload t a st n | tryLoad t a =>
    first | exact hclient hv | exact hclient ⟨hv, exclusive_word (he _ hv)⟩
  | lost t a st old n | tryLost t a old => exact hclient ⟨hv.1, exclusive_word (he _ hv.1)⟩
  | acquireFirst t a st h | acquire t a st old n h =>
    intro g hg
    rw [List.mem_singleton.mp hg]
    exact hafter t st
  | spin t a st old n => exact hclient hv.1
  | mark t a st old n h h' => exact absurd (hone old hv.2 h) fun h1 => h' (by rcases hv.2 with rfl | rfl <;> first | exact absurd rfl h | rfl)
  | park t a st old n h =>
    intro g hg
    rw [List.mem_singleton.mp hg, hone old hv.2 h]
    exact hpark (.inl ⟨t, a, st, hv.1, rfl⟩)
  | clear t a st old n h =>
    refine hclient ⟨hv.1, hv.2.resolve_right ?_⟩
    rintro rfl
    exact absurd h (by decide)
  | marked t a st old n h => exact hv.elim
  | markLost t a st old n => exact hv.elim
  | unlockLoad t a w | unlockLost t a w old => exact hclient hv
  | unlockWake t a w old h h' =>
    intro g hg
    rw [List.mem_singleton.mp hg]
    exact hunpark (.inl ⟨t, a, w, hv.1.1, hv.1.2, rfl⟩)
  | unlockQuiet t a w old h h' =>
    intro g hg
    rw [List.mem_singleton.mp hg]
    cases w with
    | none => exact valid_client trivial
    | some w => exact valid_client ⟨hv.1.1, hv.1.2 w rfl⟩
  | tryTaken t a old h | tryAcquire t a h | waitReturn t st | notifyReturn t s all waiters => exact hclient trivial
  | waitLoad t s a timed =>
    refine hclient ⟨⟨hv.1.2, fun x hx => ?_⟩, hv.2⟩
    cases hx
    exact hv.1.1
  | futexWait t a w =>
    intro g hg
    rw [List.mem_singleton.mp hg]
    exact hpark (.inr ⟨t, a, w, hv.1, hv.2, rfl⟩)
  | futexReturn t a w r st => exact hclient hv.1
  | notify t s all => exact hclient hv
  | notifyAdd t s all waiters =>
    intro g hg
    rw [List.mem_singleton.mp hg]
    exact hunpark (.inr ⟨t, s, all, waiters, hv, rfl⟩)

theorem client_of_none {g : Frame Words Client} (hp : parkOf g = none) (hu : unparkOf g = none) : ∃ k, g = .client k := by
  cases g <;> first | exact ⟨_, rfl⟩ | (cases hp; done) | cases hu

theorem follows_thread {g : Frame Words Client} (hf : Follows f g) (hv : Valid seqs c.mem.words f) :
    threadOf g = threadOf f := by
  cases hf with
  | inside _ hp hu hg =>
    unfold threadOf
    rw [hp, hu]
    cases hpf : parkOf f with
    | some p => rfl
    | none =>
      cases huf : unparkOf f with
      | some u => rfl
      | none =>
        obtain ⟨k, rfl⟩ := client_of_none (hp.trans hpf) (hu.trans huf)
        exact absurd rfl (hg k)
  | parked p r hp =>
    unfold threadOf
    rw [hp]
    rcases hv.park p hp with ⟨t, a, st, -, rfl⟩ | ⟨t, a, w, -, -, rfl⟩ <;> rfl
  | unparked u hu =>
    have hp : parkOf f = none := by cases f <;> first | rfl | cases hu
    unfold threadOf
    rw [hp, hu]
    rfl

theorem follows_valid {g : Frame Words Client} (hf : Follows f g) (hv : Valid seqs m f) : Valid seqs m g := by
  cases hf with
  | inside _ hp hu hg =>
    exact ⟨fun p h => hv.park p (hp ▸ h), fun u h => hv.unpark u (hu ▸ h), fun k hk => absurd hk (hg k)⟩
  | parked p r hp =>
    rcases hv.park p hp with ⟨t, a, st, ha, rfl⟩ | ⟨t, a, w, ha, hs, rfl⟩
    · exact valid_client ha
    · exact valid_client ⟨ha, hs⟩
  | unparked u hu =>
    rcases hv.unpark u hu with ⟨t, a, w, ha, hs, rfl⟩ | ⟨t, s, all, ws, hs, rfl⟩
    · cases w with
      | none => exact valid_client trivial
      | some w => exact valid_client ⟨ha, hs w rfl⟩
    · exact valid_client hs

/-- A thread that holds a mutex goes on holding it while others act. -/
theorem valid_beside (hc : MutexSound seqs c) {k₀ : Client} (h : Calls seqs c.mem.words k₀ m' nx)
    (hb : Beside c (.client k₀) f) (hv : Valid seqs c.mem.words f) : Valid seqs m' f := by
  refine ⟨hv.park, hv.unpark, fun k hk => ?_⟩
  have hvk := hv.client k hk
  have hv₀ : ValidClient seqs c.mem.words k₀ := by
    obtain ⟨rest, hp, -⟩ := hb
    exact (hc.valid _ (hp.mem_iff.mpr List.mem_cons_self)).client k₀ rfl
  have hother : k.thread ≠ k₀.thread := by
    intro he
    have hle := hb.le_total (ofThread k.thread)
    rw [ofThread, ofThread, if_pos (show threadOf (.client k₀) = k.thread from he.symm), hk,
      if_pos (show threadOf (.client k) = k.thread from rfl)] at hle
    exact absurd (hle.trans (hc.once _)) (by decide)
  have hheld : ∀ a, seqs a = false → k.thread ∈ c.mem.words.holders a → k.thread ∈ m'.holders a := by
    intro a ha ht
    cases h.holds hv₀ with
    | same _ hh => rw [hh]; exact ht
    | acquire t b _ hm =>
      rw [hm, acquire_holders, store_holders]
      split
      · exact List.mem_cons_of_mem _ ht
      · exact ht
    | release t b w hk₀ hm =>
      rw [hm, release_holders, store_holders]
      split
      next hab =>
        -- the mutex is held by the one thread that releases it
        subst hk₀ hab
        have ht₀ : t ∈ c.mem.words.holders a := hv₀.2
        rcases hc.exclusive a ha with ⟨-, hh⟩ | ⟨-, t', hh⟩
        · rw [hh] at ht
          cases ht
        · rw [hh, List.mem_singleton] at ht ht₀
          exact absurd (ht.trans ht₀.symm) hother
      next => exact ht
  cases k with
  | unlockLoad t a w | unlockCas t a w old => exact ⟨hvk.1, hheld a hvk.1.1 hvk.2⟩
  | waitLoad t s a timed => exact ⟨hvk.1, hheld a hvk.1.2 hvk.2⟩
  | _ => exact hvk

theorem MutexSound.step {x : Bool × Choice} (h : MutexSound seqs c) (hs : Step (code (client seqs)) c f x c') :
    MutexSound seqs c' := by
  have hvf := h.valid f hs.mem_frame
  obtain ⟨fs, he⟩ := hs.runs_code
  -- one frame takes the place of another one of its thread
  have hone : ∃ g, fs = [g] ∧ threadOf g = threadOf f := by
    rcases (acts_of_code he).follows with ⟨k, rfl⟩ | ⟨-, g, rfl, hf⟩
    · clear hs
      generalize c'.mem = m' at he
      cases acts_of_code he with
      | client _ _ _ nx hk =>
        obtain ⟨g, hg, ht⟩ := (calls_of_client hk).thread
        exact ⟨g, hg, ht⟩
    · exact ⟨g, rfl, follows_thread hf hvf⟩
  refine ⟨fun t => ?_, fun a ha => ?_, ?_⟩
  · obtain ⟨fs', he', ht⟩ := hs.total
    obtain rfl : fs = fs' := by rw [he] at he'; exact (Prod.ext_iff.mp (Option.some.inj he')).2
    obtain ⟨r, hr, hr'⟩ := ht (ofThread t)
    obtain ⟨g, rfl, hg⟩ := hone
    have hle := h.once t
    rw [hr] at hle
    rw [hr', List.map_singleton, List.sum_singleton, ofThread, hg]
    exact hle
  · rcases (acts_of_code he).follows with ⟨k, rfl⟩ | ⟨hw, -⟩
    · generalize hm : c'.mem = m' at he ⊢
      cases acts_of_code he with
      | client _ _ w nx hk => exact exclusive_step (calls_of_client hk) (hvf.client k rfl) ha (h.exclusive a ha)
    · rw [hw]
      exact h.exclusive a ha
  · refine hs.all h.valid (fun gs hgs g hg => ?_) fun g hb hg => ?_
    · rcases (acts_of_code hgs).follows with ⟨k, rfl⟩ | ⟨hw, g', rfl, hf⟩
      · generalize hm : c'.mem = m' at hgs ⊢
        cases acts_of_code hgs with
        | client _ _ w nx hk => exact (calls_of_client hk).valid (hvf.client k rfl) h.exclusive g hg
      · rw [hw, List.mem_singleton.mp hg]
        exact follows_valid hf hvf
    · rcases (acts_of_code he).follows with ⟨k, rfl⟩ | ⟨hw, -⟩
      · generalize hm : c'.mem = m' at he ⊢
        cases acts_of_code he with
        | client _ _ w nx hk => exact valid_beside h (calls_of_client hk) hb hg
      · rw [hw]
        exact hg

theorem initial_idle {n : ℕ} : ∀ k ∈ (initial n).threads, ∀ f ∈ k, Idle f := by
  intro k hk f hf
  obtain ⟨t, -, rfl⟩ := List.mem_map.mp hk
  rw [List.mem_singleton.mp hf]
  trivial

theorem initial_frame {n : ℕ} (hf : f ∈ (initial n).frames) : ∃ t, f = .client (.idle t) := by
  obtain ⟨k, hk, hf⟩ := List.mem_flatten.mp hf
  obtain ⟨t, -, rfl⟩ := List.mem_map.mp hk
  exact ⟨t, List.mem_singleton.mp hf⟩

theorem mutexSound_initial (n : ℕ) : MutexSound seqs (initial n) := by
  refine ⟨fun t => ?_, fun a _ => .inl ⟨rfl, rfl⟩, fun f hf => ?_⟩
  · have hcount : (initial n).total (ofThread t) = (List.range n).count t := by
      induction n with
      | zero => rfl
      | succ n ih =>
        have hsplit : (initial (n+1)).frames = (initial n).frames ++ [.client (.idle n)] := by
          simp [initial, Config.frames, List.range_succ]
        rw [Config.total, hsplit, List.map_append, List.sum_append, List.map_singleton, List.sum_singleton,
          List.range_succ, List.count_append, List.count_singleton]
        exact congrArg₂ (· + ·) ih (if_congr (by rw [beq_iff_eq]; rfl) rfl rfl)
    rw [hcount]
    exact List.nodup_iff_count_le_one.mp List.nodup_range t
  · obtain ⟨t, rfl⟩ := initial_frame hf
    exact valid_client trivial

theorem mutexSound_of_reaches {guard : Guard (Shared Words) (Frame Words Client)} {n : ℕ}
    (h : Reaches (code (client seqs)) guard (initial n) c) : MutexSound seqs c := by
  induction h with
  | refl => exact mutexSound_initial n
  | step _ _ hs ih => exact ih.step hs

end Steps

end Zpc.ConcurrencyPrimitive
