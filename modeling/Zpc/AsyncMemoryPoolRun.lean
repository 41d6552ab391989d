import Zpc.AsyncMemoryPoolLedger

/-!
# Runs of the pool of asynchronous objects

As long as `pop_` never installs a link that its top no longer has, each action keeps the ledger. Otherwise two holders can
get the same slot.
-/
namespace Zpc.AsyncObjectPool
open LinkedStack

variable {ι τ : Type} {n : ℕ} {s s' : State ι τ} {t u : τ} {p : ι} {x : Slot ι} {hs : List (ι × Slot ι)} {c : Control ι}

/-! ## What a thread knows -/

def Task.hands (pool : ι) : Task ι → List (ι × Slot ι)
  | .acquire => []
  | .release slot => [(pool, slot)]

def Flush.hands : Flush ι → List (ι × Slot ι)
  | .bind pool task => task.hands pool
  | .release => []

def Push.hands (n : ℕ) (pool : ι) : Push ι → List (ι × Slot ι)
  | .flush caller => caller.hands
  | .grow slab index => (slotsFrom n pool slab (index + 1)).map (pool, ·)

/-- The slots that a call has taken and not yet put anywhere. -/
def Control.hands (n : ℕ) : Control ι → List (ι × Slot ι)
  | .flush _ caller => caller.hands
  | .flushClear owner caller slot => (owner, slot) :: caller.hands
  | .pushLoad pool caller slot | .pushLink pool caller slot _ | .pushSwap pool caller slot _ =>
    (pool, slot) :: caller.hands n pool
  | .localClear pool slot | .construct pool slot | .refillPush pool _ slot | .releasePush pool slot => [(pool, slot)]
  | _ => []

/-- The pool that the cache is bound to. -/
def Control.owner : Control ι → Option ι
  | .idle | .construct _ _ => none
  | .flush pool _ | .flushClear pool _ _ | .pushLoad pool _ _ | .pushLink pool _ _ _ | .pushSwap pool _ _ _
  | .localPop pool _ | .localClear pool _ | .refill pool _ | .popNext pool _ _ | .popSwap pool _ _ _
  | .refillPush pool _ _ | .growLock pool | .growCheck pool | .growAllocate pool | .growUnlock pool
  | .releasePush pool _ => some pool

def Push.room : Push ι → ℕ
  | .flush _ => 0
  | .grow _ _ => 1

/-- How far the count of the cache stays below one more than the limit. -/
def Control.room : Control ι → ℕ
  | .flush _ _ | .flushClear _ _ _ => 0
  | .pushLoad _ caller _ | .pushLink _ caller _ _ | .pushSwap _ caller _ _ => caller.room
  | .popNext _ _ _ | .popSwap _ _ _ _ | .refillPush _ _ _ => 2
  | _ => 1

def Control.Linked (next : Slot ι → Option (Slot ι)) : Control ι → Prop
  | .pushSwap _ _ slot head => next slot = head
  | _ => True

structure Control.Fits (n : ℕ) (next : Slot ι → Option (Slot ι)) (cache : LocalCache ι) (c : Control ι) : Prop where
  owner : ∀ p, c.owner = some p → cache.owner = some p
  linked : c.Linked next
  room : cache.count + c.room ≤ kLocalCacheLimit n + 1

structure State.Inv (n : ℕ) (s : State ι τ) : Prop where
  kept : Ledger.Kept n {s with hands := fun t => (s.control t).hands n}
  fits : ∀ t, (s.control t).Fits n s.next (s.cache t)

/-! ## One thread in the focus -/

theorem limit_le (n : ℕ) : kLocalCacheLimit n ≤ 32 := by
  unfold kLocalCacheLimit
  split <;> omega

theorem Control.Fits.count_lt {next : Slot ι → Option (Slot ι)} {cache : LocalCache ι} (h : c.Fits n next cache) :
    cache.count + 1 < 2 ^ 64 := by
  have h1 := h.room
  have h2 := limit_le n
  omega

theorem popped_count {cache : LocalCache ι} {v : Option (Slot ι)} (hpos : 0 < cache.count) (hc : cache.count < 2 ^ 64) :
    (cache.popped v).count + 1 = cache.count := by
  simp only [LocalCache.popped]
  omega

theorem pushed_count {cache : LocalCache ι} (hc : cache.count + 1 < 2 ^ 64) :
    (cache.pushed x).count = cache.count + 1 := Nat.mod_eq_of_lt hc

variable [DecidableEq τ]

/-- The thread has these slots in its hands, wherever it is about to be; the others are as they were. -/
structure State.Focus (n : ℕ) (s : State ι τ) (t : τ) (hs : List (ι × Slot ι)) : Prop where
  kept : Ledger.Kept n {s with hands := Function.update (fun u => (s.control u).hands n) t hs}
  fits : ∀ u, u ≠ t → (s.control u).Fits n s.next (s.cache u)

namespace State
theorem Inv.focus (h : s.Inv n) (hc : s.control t = c) : s.Focus n t (c.hands n) where
  kept := by
    have hu : Function.update (fun u => (s.control u).hands n) t (c.hands n) = fun u => (s.control u).hands n := by
      rw [← hc]
      exact Function.update_eq_self t fun u => (s.control u).hands n
    rw [hu]
    exact h.kept
  fits u _ := h.fits u

theorem Focus.goto (h : s.Focus n t (c.hands n)) (hf : c.Fits n s.next (s.cache t)) : (s.goto t c).Inv n where
  kept := by
    have hu : (fun u => ((s.goto t c).control u).hands n) =
        Function.update (fun u => (s.control u).hands n) t (c.hands n) := by
      funext u
      by_cases hu : u = t
      · subst hu
        simp [State.goto]
      · simp [State.goto, hu]
    rw [hu]
    exact h.kept
  fits u := by
    by_cases hu : u = t
    · subst hu
      simp only [State.goto, Function.update_self]
      exact hf
    · simp only [State.goto, Function.update_of_ne hu]
      exact h.fits u hu

/-- What another thread knows does not depend on its cache or on links that it does not have in its hands. -/
theorem fits_write {next : Slot ι → Option (Slot ι)} {cache : LocalCache ι} [DecidableEq ι] (h : c.Fits n next cache)
    (hx : ∀ p, (p, x) ∉ c.hands n) (v : Option (Slot ι)) : c.Fits n (Function.update next x v) cache where
  owner := h.owner
  linked := by
    have hl := h.linked
    cases c with
    | pushSwap pool caller slot head =>
      have hne : slot ≠ x := by
        rintro rfl
        exact hx pool List.mem_cons_self
      simp only [Control.Linked, Function.update_of_ne hne]
      exact hl
    | _ => trivial
  room := h.room

theorem focusHands (s : State ι τ) (t : τ) (hs : List (ι × Slot ι)) :
    Ledger.hands {s with hands := Function.update (fun u => (s.control u).hands n) t hs} t = hs := by
  simp only [Function.update_self]

theorem Focus.setCache {cache : LocalCache ι} {hs' : List (ι × Slot ι)} (h : s.Focus n t hs)
    (hk : Ledger.Kept n {s with
      cache := Function.update s.cache t cache
      hands := Function.update (fun u => (s.control u).hands n) t hs'}) :
    State.Focus n {s with cache := Function.update s.cache t cache} t hs' where
  kept := hk
  fits u hu := by
    simp only [Function.update_of_ne hu]
    exact h.fits u hu

theorem Focus.rebind (h : s.Focus n t hs)
    (he : (s.cache t).owner = none ∨ (s.cache t).head = none ∨ (s.cache t).count = 0) :
    State.Focus n {s with cache := Function.update s.cache t {owner := some p}} t hs :=
  h.setCache (h.kept.rebind he)

theorem inv_rebind {task : Task ι} (h : s.Focus n t (task.hands p))
    (he : (s.cache t).owner = none ∨ (s.cache t).head = none ∨ (s.cache t).count = 0) : (s.rebind t p task).Inv n := by
  have hk := h.rebind (p := p) he
  cases task with
  | acquire =>
    apply hk.goto
    simp only [Function.update_self]
    exact ⟨fun _ hp => hp, trivial, Nat.le_add_left ..⟩
  | release slot =>
    apply hk.goto
    simp only [Function.update_self]
    exact ⟨fun _ hp => hp, trivial, Nat.le_add_left ..⟩

theorem inv_flushed {caller : Flush ι} (h : s.Focus n t caller.hands)
    (he : (s.cache t).count ≤ caller.retain n) : (s.flushed t caller).Inv n := by
  cases caller with
  | bind pool task => exact inv_rebind h (.inr (.inr (Nat.le_zero.mp he)))
  | release =>
    refine h.goto (c := .idle) ⟨nofun, trivial, ?_⟩
    have he : (s.cache t).count ≤ kLocalCacheLimit n / 2 := he
    simp only [Control.room]
    omega

theorem inv_growNext {slab index : ℕ} (h : s.Focus n t ((slotsFrom n p slab index).map (p, ·)))
    (ho : (s.cache t).owner = some p) (hroom : (s.cache t).count ≤ kLocalCacheLimit n) :
    (s.goto t (growNext n p slab index)).Inv n := by
  unfold growNext
  split
  · rename_i hi
    rw [slotsFrom_eq hi, List.map_cons] at h
    exact h.goto (c := .pushLoad p (.grow slab index) _)
      ⟨fun _ hp => ho.trans hp, trivial, Nat.add_le_add_right hroom 1⟩
  · rename_i hi
    rw [slotsFrom_nil (Nat.le_of_not_lt hi), List.map_nil] at h
    exact h.goto (c := .growUnlock p) ⟨fun _ hp => ho.trans hp, trivial, Nat.add_le_add_right hroom 1⟩

theorem inv_popLoaded {grown : Bool} {head : Option (Slot ι)} (h : s.Focus n t []) (ho : (s.cache t).owner = some p)
    (hroom : (s.cache t).count < kLocalCacheLimit n) : (s.goto t (popLoaded p grown head)).Inv n := by
  cases head with
  | none =>
    exact h.goto (c := .localPop p (.refilled grown))
      ⟨fun _ hp => ho.trans hp, trivial, Nat.add_le_add_right (Nat.le_of_lt hroom) 1⟩
  | some head =>
    exact h.goto (c := .popNext p grown head) ⟨fun _ hp => ho.trans hp, trivial, Nat.add_le_add_right hroom 1⟩

variable [DecidableEq ι]

theorem Focus.write (h : s.Focus n t hs) (hx : (p, x) ∈ hs) (v : Option (Slot ι)) :
    State.Focus n {s with next := Function.update s.next x v} t hs where
  kept := h.kept.write (.inl ⟨t, p, by simpa using hx⟩) v
  fits u hu := by
    apply fits_write (h.fits u hu)
    intro p' hp'
    have hmine : (p, x) ∈ Function.update (fun u => (s.control u).hands n) t hs t := by simpa using hx
    have hother : (p', x) ∈ Function.update (fun u => (s.control u).hands n) t hs u := by
      simpa [Function.update_of_ne hu] using hp'
    exact hu (h.kept.hands_disjoint hother hmine)

theorem Focus.localPop (h : s.Focus n t hs) (hhead : (s.cache t).head = some x) (ho : (s.cache t).owner = some p)
    (hc : (s.cache t).count < 2 ^ 64) :
    State.Focus n {s with cache := Function.update s.cache t ((s.cache t).popped (s.next x))} t ((p, x) :: hs) := by
  apply h.setCache
  have hk := h.kept.localPop (t := t) hhead ho hc
  simp only [Function.update_self, Function.update_idem] at hk
  exact hk

theorem Focus.localPush (h : s.Focus n t ((p, x) :: hs)) (hn : s.next x = (s.cache t).head)
    (ho : (s.cache t).owner = some p) (hc : (s.cache t).count + 1 < 2 ^ 64) :
    State.Focus n {s with cache := Function.update s.cache t ((s.cache t).pushed x)} t hs := by
  apply h.setCache
  have hk := h.kept.localPush (focusHands s t _) hn ho hc
  simp only [Function.update_idem] at hk
  exact hk

theorem Focus.push (h : s.Focus n t ((p, x) :: hs)) (hn : s.next x = s.freeList p) :
    State.Focus n {s with freeList := Function.update s.freeList p (some x)} t hs where
  kept := by
    have hk := h.kept.push (focusHands s t _) hn
    simp only [Function.update_idem] at hk
    exact hk
  fits := h.fits

theorem Focus.pop (h : s.Focus n t hs) (hx : s.freeList p = some x) :
    State.Focus n {s with freeList := Function.update s.freeList p (s.next x)} t ((p, x) :: hs) where
  kept := by
    have hk := h.kept.pop (t := t) hx
    simp only [Function.update_self, Function.update_idem] at hk
    exact hk
  fits := h.fits

theorem Focus.hold (h : s.Focus n t ((p, x) :: hs)) :
    State.Focus n {s with held := Function.update s.held p (x :: s.held p)} t hs where
  kept := by
    have hk := h.kept.hold (focusHands s t _)
    simp only [Function.update_idem] at hk
    exact hk
  fits := h.fits

theorem Focus.giveUp (h : s.Focus n t hs) (hx : x ∈ s.held p) :
    State.Focus n {s with held := Function.update s.held p ((s.held p).erase x)} t ((p, x) :: hs) where
  kept := by
    have hk := h.kept.giveUp (t := t) hx
    simp only [Function.update_self, Function.update_idem] at hk
    exact hk
  fits := h.fits

theorem Focus.allocate (h : s.Focus n t []) :
    State.Focus n {s with slabs := Function.update s.slabs p (s.slabs p + 1)} t
      ((slotsFrom n p (s.slabs p) 0).map (p, ·)) where
  kept := by
    have hk := h.kept.allocate (p := p) (focusHands s t [])
    simp only [Function.update_idem] at hk
    exact hk
  fits := h.fits

/-! ## What an action keeps -/

theorem inv_bindLocalCache {task : Task ι} (h : s.Focus n t (task.hands p))
    (hroom : (s.cache t).count ≤ kLocalCacheLimit n) : (s.bindLocalCache t p task).Inv n := by
  unfold bindLocalCache
  by_cases ho : (s.cache t).owner = some p
  · rw [if_pos ho]
    cases task with
    | acquire => exact h.goto ⟨fun _ hp => ho.trans hp, trivial, Nat.add_le_add_right hroom 1⟩
    | release slot => exact h.goto ⟨fun _ hp => ho.trans hp, trivial, Nat.add_le_add_right hroom 1⟩
  · rw [if_neg ho]
    split
    · rename_i ho' _
      exact h.goto (c := .flush _ (.bind p task)) ⟨fun _ hp => ho'.trans hp, trivial, Nat.le_succ_of_le hroom⟩
    · rename_i hnot
      apply inv_rebind h
      cases ho' : (s.cache t).owner with
      | none => exact .inl rfl
      | some owner =>
        cases hh : (s.cache t).head with
        | none => exact .inr (.inl rfl)
        | some slot => exact absurd hh (hnot owner slot ho')

theorem inv_flush {caller : Flush ι} (h : s.Inv n) (hc : s.control t = .flush p caller)
    (hs : s.advance n t = some s') : s'.Inv n := by
  have hf := h.fits t
  have hk := h.focus hc
  rw [hc] at hf
  simp only [advance, hc] at hs
  cases hhead : (s.cache t).head with
  | none =>
    simp only [hhead, Option.some.injEq] at hs
    subst hs
    apply inv_flushed hk
    rw [h.kept.count_eq_zero hhead]
    exact Nat.zero_le _
  | some slot =>
    simp only [hhead] at hs
    split at hs
    · cases hs
      have hpos : 0 < (s.cache t).count := h.kept.count_pos hhead
      have hlt := hf.count_lt
      have ho := hf.owner p rfl
      refine (hk.localPop hhead ho (by omega)).goto ⟨?_, trivial, ?_⟩
      · simp only [Function.update_self]
        exact fun _ hp => ho.trans hp
      · have hcount := popped_count (v := s.next slot) hpos (by omega)
        have hroom := hf.room
        simp only [Function.update_self, Control.room] at hroom ⊢
        omega
    · cases hs
      exact inv_flushed hk (by omega)

theorem inv_localPop {stage : Stage} (h : s.Inv n) (hc : s.control t = .localPop p stage)
    (hs : s.advance n t = some s') : s'.Inv n := by
  have hf := h.fits t
  have hk := h.focus hc
  rw [hc] at hf
  simp only [advance, hc] at hs
  cases hhead : (s.cache t).head with
  | none =>
    simp only [hhead, Option.some.injEq] at hs
    subst hs
    cases stage with
    | cached => exact hk.goto (c := .refill p false) ⟨hf.owner, trivial, hf.room⟩
    | refilled grown =>
      cases grown with
      | false => exact hk.goto (c := .growLock p) ⟨hf.owner, trivial, hf.room⟩
      | true => exact hk.goto (c := .idle) ⟨nofun, trivial, hf.room⟩
  | some slot =>
    simp only [hhead, Option.some.injEq] at hs
    subst hs
    have hpos : 0 < (s.cache t).count := h.kept.count_pos hhead
    have hlt := hf.count_lt
    have ho := hf.owner p rfl
    refine (hk.localPop hhead ho (by omega)).goto (c := .localClear p slot) ⟨?_, trivial, ?_⟩
    · simp only [Function.update_self]
      exact fun _ hp => ho.trans hp
    · have hcount := popped_count (v := s.next slot) hpos (by omega)
      have hroom := hf.room
      simp only [Function.update_self, Control.room] at hroom ⊢
      omega

theorem inv_pushSwap {caller : Push ι} {head : Option (Slot ι)} (h : s.Inv n)
    (hc : s.control t = .pushSwap p caller x head) (hs : s.advance n t = some s') : s'.Inv n := by
  have hf := h.fits t
  have hk := h.focus hc
  rw [hc] at hf
  simp only [advance, hc] at hs
  split at hs
  · rename_i he
    cases hs
    have hk' := hk.push (hf.linked.trans he.symm)
    cases caller with
    | flush caller => exact hk'.goto (c := .flush p caller) ⟨hf.owner, trivial, hf.room⟩
    | grow slab index => exact inv_growNext hk' (hf.owner p rfl) (Nat.le_of_succ_le_succ hf.room)
  · cases hs
    exact hk.goto (c := .pushLink p caller x _) ⟨hf.owner, trivial, hf.room⟩

/-- What `local_push_` leaves, when the link is written and the cache has the slot. -/
theorem inv_localPush {c : Control ι} (hk : s.Focus n t [(p, x)]) (ho : (s.cache t).owner = some p)
    (hlt : (s.cache t).count + 1 < 2 ^ 64) (hhands : c.hands n = [])
    (hf : c.Fits n (Function.update s.next x (s.cache t).head) ((s.cache t).pushed x)) :
    (State.goto {s with
      next := Function.update s.next x (s.cache t).head
      cache := Function.update s.cache t ((s.cache t).pushed x)} t c).Inv n := by
  have hk' := (hk.write List.mem_cons_self (s.cache t).head).localPush (Function.update_self ..) ho hlt
  rw [← hhands] at hk'
  apply hk'.goto
  simp only [Function.update_self]
  exact hf

theorem inv_popSwap {grown : Bool} {next : Option (Slot ι)} (h : s.Inv n)
    (hc : s.control t = .popSwap p grown x next) (hu : s.freeList p = some x → s.next x = next)
    (hs : s.advance n t = some s') : s'.Inv n := by
  have hf := h.fits t
  have hk := h.focus hc
  rw [hc] at hf
  simp only [advance, hc] at hs
  split at hs
  · rename_i he
    cases hs
    have hk' := hk.pop he
    rw [hu he] at hk'
    exact hk'.goto (c := .refillPush p grown x) ⟨hf.owner, trivial, hf.room⟩
  · cases hs
    exact inv_popLoaded hk (hf.owner p rfl) (Nat.le_of_succ_le_succ hf.room)

/-- Every action of a call keeps the invariant when it is undisturbed. -/
theorem inv_advance (h : s.Inv n) (hu : Undisturbed s (.advance t)) (hs : s.advance n t = some s') : s'.Inv n := by
  have hf := h.fits t
  cases hc : s.control t with
  | idle => simp only [advance, hc, reduceCtorEq] at hs
  | construct pool slot => simp only [advance, hc, reduceCtorEq] at hs
  | flush owner caller => exact inv_flush h hc hs
  | localPop pool stage => exact inv_localPop h hc hs
  | pushSwap pool caller slot head => exact inv_pushSwap h hc hs
  | popSwap pool grown head next =>
    simp only [Undisturbed, hc, Control.Undisturbed] at hu
    exact inv_popSwap h hc hu hs
  | flushClear owner caller slot =>
    rw [hc] at hf
    simp only [advance, hc, Option.some.injEq] at hs
    subst hs
    exact ((h.focus hc).write List.mem_cons_self none).goto (c := .pushLoad owner (.flush caller) slot)
      ⟨hf.owner, trivial, hf.room⟩
  | pushLoad pool caller slot =>
    rw [hc] at hf
    simp only [advance, hc, Option.some.injEq] at hs
    subst hs
    exact (h.focus hc).goto (c := .pushLink pool caller slot (s.freeList pool)) ⟨hf.owner, trivial, hf.room⟩
  | pushLink pool caller slot head =>
    rw [hc] at hf
    simp only [advance, hc, Option.some.injEq] at hs
    subst hs
    exact ((h.focus hc).write List.mem_cons_self head).goto (c := .pushSwap pool caller slot head)
      ⟨hf.owner, Function.update_self .., hf.room⟩
  | localClear pool slot =>
    rw [hc] at hf
    simp only [advance, hc, Option.some.injEq] at hs
    subst hs
    exact ((h.focus hc).write List.mem_cons_self none).goto (c := .construct pool slot) ⟨nofun, trivial, hf.room⟩
  | refill pool grown =>
    rw [hc] at hf
    simp only [advance, hc] at hs
    split at hs
    · rename_i hlt
      cases hs
      exact inv_popLoaded (h.focus hc) (hf.owner pool rfl) hlt
    · cases hs
      exact (h.focus hc).goto (c := .localPop pool (.refilled grown)) ⟨hf.owner, trivial, hf.room⟩
  | popNext pool grown head =>
    rw [hc] at hf
    simp only [advance, hc, Option.some.injEq] at hs
    subst hs
    exact (h.focus hc).goto (c := .popSwap pool grown head (s.next head)) ⟨hf.owner, trivial, hf.room⟩
  | refillPush pool grown slot =>
    rw [hc] at hf
    simp only [advance, hc, Option.some.injEq] at hs
    subst hs
    have hcount := pushed_count (x := slot) hf.count_lt
    have hroom := hf.room
    refine inv_localPush (h.focus hc) (hf.owner pool rfl) hf.count_lt rfl ⟨hf.owner, trivial, ?_⟩
    simp only [Control.room] at hroom ⊢
    omega
  | growLock pool =>
    rw [hc] at hf
    simp only [advance, hc] at hs
    split at hs
    · cases hs
    · cases hs
      have hk := h.focus hc
      exact Focus.goto ⟨hk.kept, hk.fits⟩ (c := .growCheck pool) ⟨hf.owner, trivial, hf.room⟩
  | growCheck pool =>
    rw [hc] at hf
    simp only [advance, hc, Option.some.injEq] at hs
    subst hs
    split
    · exact (h.focus hc).goto (c := .growAllocate pool) ⟨hf.owner, trivial, hf.room⟩
    · exact (h.focus hc).goto (c := .growUnlock pool) ⟨hf.owner, trivial, hf.room⟩
  | growAllocate pool =>
    rw [hc] at hf
    simp only [advance, hc, Option.some.injEq] at hs
    subst hs
    exact inv_growNext (h.focus hc).allocate (hf.owner pool rfl) (Nat.le_of_succ_le_succ hf.room)
  | growUnlock pool =>
    rw [hc] at hf
    simp only [advance, hc, Option.some.injEq] at hs
    subst hs
    have hk := h.focus hc
    exact Focus.goto ⟨hk.kept, hk.fits⟩ (c := .refill pool true) ⟨hf.owner, trivial, hf.room⟩
  | releasePush pool slot =>
    rw [hc] at hf
    simp only [advance, hc, Option.some.injEq] at hs
    subst hs
    have hcount := pushed_count (x := slot) hf.count_lt
    have hroom := hf.room
    simp only [Control.room] at hroom
    split
    · refine inv_localPush (h.focus hc) (hf.owner pool rfl) hf.count_lt rfl ⟨hf.owner, trivial, ?_⟩
      simp only [Control.room]
      omega
    · refine inv_localPush (h.focus hc) (hf.owner pool rfl) hf.count_lt rfl ⟨nofun, trivial, ?_⟩
      simp only [Control.room]
      omega

omit [DecidableEq τ] in
theorem Inv.write (h : s.Inv n) (hx : x ∈ s.held p) (v : Option (Slot ι)) :
    State.Inv n {s with next := Function.update s.next x v} where
  kept := h.kept.write (.inr ⟨p, hx⟩) v
  fits t := fits_write (h.fits t) (fun _ hp => h.kept.held_disjoint hx hp) v

end State

variable [DecidableEq ι]

theorem inv_step {a : Action ι τ} (h : s.Inv n) (hu : Undisturbed s a) (hs : step n s a = some s') : s'.Inv n := by
  cases a with
  | acquire t pool =>
    cases hc : s.control t <;> simp only [step, hc, Option.some.injEq, reduceCtorEq] at hs
    subst hs
    have hf := h.fits t
    rw [hc] at hf
    exact State.inv_bindLocalCache (h.focus hc) (Nat.le_of_succ_le_succ hf.room)
  | release t pool ptr =>
    cases hc : s.control t <;> cases ptr <;> simp only [step, hc, Option.some.injEq, reduceCtorEq] at hs
    · exact hs ▸ h
    · split at hs
      · rename_i hx
        cases hs
        have hf := h.fits t
        rw [hc] at hf
        exact State.inv_bindLocalCache ((h.focus hc).giveUp hx) (Nat.le_of_succ_le_succ hf.room)
      · cases hs
  | advance t => exact State.inv_advance h hu hs
  | construct t word =>
    cases hc : s.control t <;> simp only [step, hc, Option.some.injEq, reduceCtorEq] at hs
    subst hs
    have hf := h.fits t
    rw [hc] at hf
    exact ((h.focus hc).write List.mem_cons_self word).hold.goto (c := .idle) ⟨nofun, trivial, hf.room⟩
  | swapFails t =>
    have hf := h.fits t
    cases hc : s.control t <;> simp only [step, hc, Option.some.injEq, reduceCtorEq] at hs
    · rename_i pool caller slot head
      subst hs
      rw [hc] at hf
      exact (h.focus hc).goto (c := .pushLink pool caller slot (s.freeList pool)) ⟨hf.owner, trivial, hf.room⟩
    · rename_i pool grown head next
      subst hs
      rw [hc] at hf
      exact State.inv_popLoaded (h.focus hc) (hf.owner pool rfl) (Nat.le_of_succ_le_succ hf.room)
  | write pool slot word =>
    simp only [step] at hs
    split at hs
    · rename_i hx
      cases hs
      exact h.write hx word
    · cases hs

omit [DecidableEq τ] [DecidableEq ι] in
theorem inv_init (n : ℕ) (next : Slot ι → Option (Slot ι)) : ({next} : State ι τ).Inv n where
  kept := by
    refine ⟨fun _ => .nowhere, fun x => ?_, fun q => ?_⟩
    · exact iff_of_false (fun h => h rfl) (fun h => Nat.not_lt_zero _ h.1)
    · have howns : ∀ q' : Place ι τ, q' ≠ .nowhere → Owns (fun _ : Slot ι => .nowhere) q' [] :=
        fun q' hq => ⟨List.nodup_nil, fun _ => iff_of_false List.not_mem_nil hq.symm⟩
      cases q with
      | nowhere => trivial
      | free p => exact ⟨⟨[], rfl, howns _ nofun⟩, nofun⟩
      | cached t => exact ⟨⟨[], ⟨rfl, howns _ nofun⟩, rfl⟩, nofun⟩
      | hands t => exact ⟨howns _ nofun, nofun⟩
      | held p => exact ⟨howns _ nofun, nofun⟩
  fits _ := ⟨nofun, trivial, Nat.le_add_left ..⟩

theorem inv_run {actions : List (Action ι τ)} (h : s.Inv n) (hu : UndisturbedFrom n s actions)
    (hs : actions.foldlM (step n) s = some s') : s'.Inv n := by
  induction actions generalizing s with
  | nil =>
    cases hs
    exact h
  | cons a actions ih =>
    rw [List.foldlM_cons, Option.bind_eq_bind] at hs
    have ⟨s₁, h₁, h₂⟩ := Option.bind_eq_some_iff.mp hs
    exact ih (inv_step h hu.1 h₁) (hu.2 s₁ h₁) h₂

/-! ## What a run observes -/

omit [DecidableEq τ] [DecidableEq ι] in
/-- Every ledger that is kept meets what is asked of the pool. -/
theorem State.Inv.sound (h : s.Inv n) : s.Sound n := by
  have ⟨⟨place, hplace⟩, _⟩ := h
  have hheld : ∀ p x, x ∈ s.held p ↔ place x = .held p := fun p x => (hplace.right (.held p)).1.mem_iff x
  have hfree : ∀ p x, Leads s.next (s.freeList p) x ↔ place x = .free p := by
    intro p x
    have ⟨⟨xs, hs⟩, _⟩ := hplace.right (.free p)
    exact hs.leads_iff
  have hcached : ∀ t x, Leads s.next (s.cache t).head x ↔ place x = .cached t := by
    intro t x
    have ⟨⟨xs, hs, _⟩, _⟩ := hplace.right (.cached t)
    exact hs.leads_iff
  have howner : ∀ t x, place x = .cached t → (s.cache t).owner = some x.pool := fun t => (hplace.right (.cached t)).2
  have hcomplete : s.Quiescent → ∀ p x, x ∈ s.held p ∨ s.OnFreeList p x ↔ x.pool = p ∧ s.Allocated n x := by
    intro hq p x
    have hhands : ∀ t, place x ≠ .hands t := by
      intro t ht
      have hm := ((hplace.right (.hands t)).1.mem_iff x).mpr ht
      simp only [hq t, Control.hands, List.map_nil, List.not_mem_nil] at hm
    simp only [OnFreeList, hheld, hfree, hcached]
    constructor
    · rintro (hx | hx | ⟨t, ho, hx⟩)
      · exact ⟨(hplace.right (.held p)).2 x hx, (hplace.allocated x).mp (by rw [hx]; nofun)⟩
      · exact ⟨(hplace.right (.free p)).2 x hx, (hplace.allocated x).mp (by rw [hx]; nofun)⟩
      · exact ⟨Option.some.inj ((howner t x hx).symm.trans ho), (hplace.allocated x).mp (by rw [hx]; nofun)⟩
    · rintro ⟨hp, hx⟩
      have hsome := (hplace.allocated x).mpr hx
      cases hpx : place x with
      | nowhere => exact absurd hpx hsome
      | free p' => exact .inr (.inl (by rw [← hp, (hplace.right (.free p')).2 x hpx]))
      | cached t => exact .inr (.inr ⟨t, hp ▸ howner t x hpx, rfl⟩)
      | hands t => exact absurd hpx (hhands t)
      | held p' => exact .inl (by rw [← hp, (hplace.right (.held p')).2 x hpx])
  constructor
  · refine ⟨fun p => (hplace.right (.held p)).1.nodup, fun p p' x hx hx' => ?_⟩
    exact Place.held.inj (((hheld p x).mp hx).symm.trans ((hheld p' x).mp hx'))
  · intro p p' x hx hlist
    have hx := (hheld p x).mp hx
    rcases hlist with hlist | ⟨t, _, hlist⟩
    · cases hx.symm.trans ((hfree p' x).mp hlist)
    · cases hx.symm.trans ((hcached t x).mp hlist)
  · exact hcomplete
  · intro hq p
    constructor
    · intro hall t ho
      cases hhead : (s.cache t).head with
      | none => rfl
      | some x =>
        have hlead : Leads s.next (s.cache t).head x := hhead ▸ .head x
        have hc := (hcached t x).mp hlead
        have ⟨hp, hx⟩ := (hcomplete hq p x).mp (.inr (.inr ⟨t, ho, hlead⟩))
        cases hall x hp hx with
        | inl hx => cases hc.symm.trans ((hheld p x).mp hx)
        | inr hx => cases hc.symm.trans ((hfree p x).mp hx)
    · intro hnone x hp hx
      rcases (hcomplete hq p x).mpr ⟨hp, hx⟩ with hx | hx | ⟨t, ho, hx⟩
      · exact .inl hx
      · exact .inr hx
      · rw [hnone t ho] at hx
        cases hx

/-- In every run whose actions are undisturbed, no slot is owned twice or owned and free, and between calls the slots that
are owned and those on the free list are all there are. -/
theorem run_sound {next : Slot ι → Option (Slot ι)} {actions : List (Action ι τ)}
    (hs : run n next actions = some s) (hu : UndisturbedFrom n {next} actions) : s.Sound n :=
  (inv_run (inv_init n next) hu hs).sound

/-- While one thread is between the two loads of `pop_` and its compare-and-swap, another takes both slots. -/
def raced : List (Action Unit Bool) :=
  .flatten [[.acquire false ()], .replicate 15 (.advance false),
    [.acquire true ()], .replicate 12 (.advance true), [.construct true none]]

theorem run_sound_raced : ∃ s, run 2 (fun _ => none) (raced ++ [.advance false]) = some s ∧ s.Sound 2 := by
  have hrun : (run 2 (fun _ => none) (raced ++ [.advance false])).isSome := by decide +kernel
  have hs := (Option.some_get hrun).symm
  exact ⟨_, hs, run_sound hs (by decide +kernel)⟩

/-- The other thread gives back the slot that was on top, but not the one below. The compare-and-swap then finds the top that
it expects and makes the slot that the other has the top. -/
def regained : List (Action Unit Bool) :=
  .flatten [raced, [.acquire true ()], .replicate 2 (.advance true), [.construct true none],
    [.release true () (some ⟨(), 0, 0⟩)], .replicate 1 (.advance true),
    [.release true () (some ⟨(), 0, 1⟩)], .replicate 7 (.advance true),
    .replicate 9 (.advance false), [.construct false none],
    [.acquire true ()], .replicate 2 (.advance true), [.construct true none]]

theorem slot_owned_twice : ∃ s,
    run 2 (fun _ => none) regained = some s ∧ s.held () = [⟨(), 0, 0⟩, ⟨(), 0, 0⟩] ∧ ¬ s.Sound 2 := by
  have hrun : (run 2 (fun _ => none) regained).map (·.held ()) = some [⟨(), 0, 0⟩, ⟨(), 0, 0⟩] := by decide +kernel
  have ⟨s, hs, hheld⟩ := Option.map_eq_some_iff.mp hrun
  refine ⟨s, hs, hheld, fun h => ?_⟩
  have hdup := h.exclusive.1 ()
  rw [hheld] at hdup
  exact absurd hdup (by decide)

end Zpc.AsyncObjectPool
