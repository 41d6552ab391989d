import Mathlib
import Zpc.LinkedStack

/-!
# The pool of asynchronous objects

`AsyncObjectPool` of `AsyncMemoryPool.hpp`. Every load, store and compare-and-swap of the shared list, and every access to
the link in a slot, is an action of its own; threads take them in any order. The cache of a thread is its own, so what the
code does with it between two such actions belongs to the second. The link of a slot shares its storage with the object, so
whoever holds the object overwrites the link.
-/
namespace Zpc.AsyncObjectPool
open LinkedStack

/-- The storage for one object: where it lies in which slab of a pool. -/
structure Slot (ι : Type) where
  pool : ι
  slab : ℕ
  index : ℕ
  deriving DecidableEq

structure LocalCache (ι : Type) where
  owner : Option ι := none
  head : Option (Slot ι) := none
  tail : Option (Slot ι) := none
  count : ℕ := 0

/-- What a call goes on with once the cache is bound. -/
inductive Task (ι : Type)
  | acquire
  | release (slot : Slot ι)

/-- Who flushes the cache. -/
inductive Flush (ι : Type)
  | bind (pool : ι) (task : Task ι)
  | release

/-- Who pushes onto the shared list: a flush, or the loop over the slots of a slab. -/
inductive Push (ι : Type)
  | flush (caller : Flush ι)
  | grow (slab index : ℕ)

/-- The `local_pop_` of an `acquire`: at once, after the first refill, or after the one that follows `grow_`. -/
inductive Stage
  | cached
  | refilled (grown : Bool)

/-- Where a thread is: the action that it takes next, with its local variables. -/
inductive Control (ι : Type)
  | idle
  | flush (owner : ι) (caller : Flush ι)
  | flushClear (owner : ι) (caller : Flush ι) (slot : Slot ι)
  | pushLoad (pool : ι) (caller : Push ι) (slot : Slot ι)
  | pushLink (pool : ι) (caller : Push ι) (slot : Slot ι) (head : Option (Slot ι))
  | pushSwap (pool : ι) (caller : Push ι) (slot : Slot ι) (head : Option (Slot ι))
  | localPop (pool : ι) (stage : Stage)
  | localClear (pool : ι) (slot : Slot ι)
  | construct (pool : ι) (slot : Slot ι)
  | refill (pool : ι) (grown : Bool)
  | popNext (pool : ι) (grown : Bool) (head : Slot ι)
  | popSwap (pool : ι) (grown : Bool) (head : Slot ι) (next : Option (Slot ι))
  | refillPush (pool : ι) (grown : Bool) (slot : Slot ι)
  | growLock (pool : ι)
  | growCheck (pool : ι)
  | growAllocate (pool : ι)
  | growUnlock (pool : ι)
  | releasePush (pool : ι) (slot : Slot ι)

/-- The pools of one type and the threads that use them. Who holds an object got it from `acquire` of the pool. -/
structure State (ι τ : Type) where
  next : Slot ι → Option (Slot ι)
  freeList : ι → Option (Slot ι) := fun _ => none
  locked : ι → Bool := fun _ => false
  slabs : ι → ℕ := fun _ => 0
  cache : τ → LocalCache ι := fun _ => {}
  control : τ → Control ι := fun _ => .idle
  held : ι → List (Slot ι) := fun _ => []

inductive Action (ι τ : Type)
  | acquire (t : τ) (pool : ι)
  | release (t : τ) (pool : ι) (ptr : Option (Slot ι))
  /-- The next action of the call. -/
  | advance (t : τ)
  /-- The object is constructed in its slot, and `acquire` returns it. -/
  | construct (t : τ) (word : Option (Slot ι))
  /-- The weak compare-and-swap fails, whatever it finds. -/
  | swapFails (t : τ)
  /-- The holder writes to its object. -/
  | write (pool : ι) (slot : Slot ι) (word : Option (Slot ι))

variable {ι τ : Type} [DecidableEq ι] [DecidableEq τ] (blocksPerSlab : ℕ)

def kLocalCacheLimit : ℕ := if blocksPerSlab < 32 then blocksPerSlab else 32

/-- The `retain` of the flush. -/
def Flush.retain : Flush ι → ℕ
  | .bind _ _ => 0
  | .release => kLocalCacheLimit blocksPerSlab / 2

def Task.body (pool : ι) : Task ι → Control ι
  | .acquire => .localPop pool .cached
  | .release slot => .releasePush pool slot

/-- What `acquire` does when `local_pop_` finds the cache empty. -/
def Stage.otherwise (pool : ι) : Stage → Control ι
  | .cached => .refill pool false
  | .refilled false => .growLock pool
  | .refilled true => .idle

/-- The cache after `local_pop_` of a slot with this link. -/
def LocalCache.popped (cache : LocalCache ι) (next : Option (Slot ι)) : LocalCache ι :=
  {cache with
    head := next
    tail := if next = none then none else cache.tail
    count := (cache.count + (2 ^ 64 - 1)) % 2 ^ 64}

def LocalCache.pushed (cache : LocalCache ι) (slot : Slot ι) : LocalCache ι :=
  {cache with
    head := some slot
    tail := if cache.tail = none then some slot else cache.tail
    count := (cache.count + 1) % 2 ^ 64}

/-- The head of the loop in `grow_`. -/
def growNext (pool : ι) (slab index : ℕ) : Control ι :=
  if index < blocksPerSlab then .pushLoad pool (.grow slab index) ⟨pool, slab, index⟩ else .growUnlock pool

/-- The end of a push. -/
def Push.after (pool : ι) : Push ι → Control ι
  | .flush caller => .flush pool caller
  | .grow slab index => growNext blocksPerSlab pool slab (index + 1)

/-- What `pop_` does with the top it has loaded; without one the refill ends. -/
def popLoaded (pool : ι) (grown : Bool) : Option (Slot ι) → Control ι
  | some head => .popNext pool grown head
  | none => .localPop pool (.refilled grown)

namespace State
def goto (s : State ι τ) (t : τ) (c : Control ι) : State ι τ := {s with control := Function.update s.control t c}

def rebind (s : State ι τ) (t : τ) (pool : ι) (task : Task ι) : State ι τ :=
  {s with cache := Function.update s.cache t {owner := some pool}}.goto t (task.body pool)

def bindLocalCache (s : State ι τ) (t : τ) (pool : ι) (task : Task ι) : State ι τ :=
  if (s.cache t).owner = some pool then s.goto t (task.body pool)
  else match (s.cache t).owner, (s.cache t).head with
    | some owner, some _ => s.goto t (.flush owner (.bind pool task))
    | _, _ => s.rebind t pool task

def flushed (s : State ι τ) (t : τ) : Flush ι → State ι τ
  | .bind pool task => s.rebind t pool task
  | .release => s.goto t .idle

/-- The shared access that the thread is about to make, and what follows up to the next. -/
def advance (s : State ι τ) (t : τ) : Option (State ι τ) :=
  let cache := s.cache t
  match s.control t with
  | .idle | .construct _ _ => none
  | .flush owner caller =>
    match cache.head with
    | some slot =>
      if caller.retain blocksPerSlab < cache.count then
        some ({s with cache := Function.update s.cache t (cache.popped (s.next slot))}.goto t
          (.flushClear owner caller slot))
      else some (s.flushed t caller)
    | none => some (s.flushed t caller)
  | .flushClear owner caller slot =>
    some ({s with next := Function.update s.next slot none}.goto t (.pushLoad owner (.flush caller) slot))
  | .pushLoad pool caller slot => some (s.goto t (.pushLink pool caller slot (s.freeList pool)))
  | .pushLink pool caller slot head =>
    some ({s with next := Function.update s.next slot head}.goto t (.pushSwap pool caller slot head))
  | .pushSwap pool caller slot head =>
    if s.freeList pool = head then
      some ({s with freeList := Function.update s.freeList pool (some slot)}.goto t (caller.after blocksPerSlab pool))
    else some (s.goto t (.pushLink pool caller slot (s.freeList pool)))
  | .localPop pool stage =>
    match cache.head with
    | some slot =>
      some ({s with cache := Function.update s.cache t (cache.popped (s.next slot))}.goto t (.localClear pool slot))
    | none => some (s.goto t (stage.otherwise pool))
  | .localClear pool slot => some ({s with next := Function.update s.next slot none}.goto t (.construct pool slot))
  | .refill pool grown =>
    if cache.count < kLocalCacheLimit blocksPerSlab then some (s.goto t (popLoaded pool grown (s.freeList pool)))
    else some (s.goto t (.localPop pool (.refilled grown)))
  | .popNext pool grown head => some (s.goto t (.popSwap pool grown head (s.next head)))
  | .popSwap pool grown head next =>
    if s.freeList pool = some head then
      some ({s with freeList := Function.update s.freeList pool next}.goto t (.refillPush pool grown head))
    else some (s.goto t (popLoaded pool grown (s.freeList pool)))
  | .refillPush pool grown slot =>
    some ({s with
      next := Function.update s.next slot cache.head
      cache := Function.update s.cache t (cache.pushed slot)}.goto t (.refill pool grown))
  | .growLock pool =>
    if s.locked pool then none
    else some ({s with locked := Function.update s.locked pool true}.goto t (.growCheck pool))
  | .growCheck pool => some (s.goto t (if s.freeList pool = none then .growAllocate pool else .growUnlock pool))
  | .growAllocate pool =>
    some ({s with slabs := Function.update s.slabs pool (s.slabs pool + 1)}.goto t
      (growNext blocksPerSlab pool (s.slabs pool) 0))
  | .growUnlock pool => some ({s with locked := Function.update s.locked pool false}.goto t (.refill pool true))
  | .releasePush pool slot =>
    some ({s with
      next := Function.update s.next slot cache.head
      cache := Function.update s.cache t (cache.pushed slot)}.goto t
        (if kLocalCacheLimit blocksPerSlab ≤ (cache.pushed slot).count then .flush pool .release else .idle))

end State

/-- One action, where it can be taken. A holder releases its object once, to the pool that it is from; the destructor has
written to the slot before. -/
def step (s : State ι τ) : Action ι τ → Option (State ι τ)
  | .acquire t pool =>
    match s.control t with
    | .idle => some (s.bindLocalCache t pool .acquire)
    | _ => none
  | .release t pool ptr =>
    match s.control t, ptr with
    | .idle, none => some s
    | .idle, some slot =>
      if slot ∈ s.held pool then
        some ({s with held := Function.update s.held pool ((s.held pool).erase slot)}.bindLocalCache t pool
          (.release slot))
      else none
    | _, _ => none
  | .advance t => s.advance blocksPerSlab t
  | .construct t word =>
    match s.control t with
    | .construct pool slot =>
      some ({s with
        next := Function.update s.next slot word
        held := Function.update s.held pool (slot :: s.held pool)}.goto t .idle)
    | _ => none
  | .swapFails t =>
    match s.control t with
    | .pushSwap pool caller slot _ => some (s.goto t (.pushLink pool caller slot (s.freeList pool)))
    | .popSwap pool grown _ _ => some (s.goto t (popLoaded pool grown (s.freeList pool)))
    | _ => none
  | .write pool slot word =>
    if slot ∈ s.held pool then some {s with next := Function.update s.next slot word} else none

/-- The state after a run of the pools, from a memory with anything in it. -/
def run (next : Slot ι → Option (Slot ι)) (actions : List (Action ι τ)) : Option (State ι τ) :=
  actions.foldlM (step blocksPerSlab) {next}

/-! ## What is free -/

def State.Allocated (s : State ι τ) (slot : Slot ι) : Prop := slot.slab < s.slabs slot.pool ∧ slot.index < blocksPerSlab

def State.OnFreeList (s : State ι τ) (pool : ι) (slot : Slot ι) : Prop :=
  Leads s.next (s.freeList pool) slot ∨
    ∃ t, (s.cache t).owner = some pool ∧ Leads s.next (s.cache t).head slot

/-- No call is under way. -/
def State.Quiescent (s : State ι τ) : Prop := ∀ t, s.control t = .idle

structure State.Sound (s : State ι τ) : Prop where
  /-- No slot is owned by two holders. -/
  exclusive : (∀ pool, (s.held pool).Nodup) ∧ ∀ pool pool' slot, slot ∈ s.held pool → slot ∈ s.held pool' → pool = pool'
  /-- No slot is owned and on a free list. -/
  apart : ∀ pool pool' slot, slot ∈ s.held pool → ¬ s.OnFreeList pool' slot
  /-- Between calls the slots that are owned and those on the free list are all slots of the pool. -/
  complete : s.Quiescent → ∀ pool slot,
    slot ∈ s.held pool ∨ s.OnFreeList pool slot ↔ slot.pool = pool ∧ s.Allocated blocksPerSlab slot
  /-- The shared list holds what is not owned, but for what threads keep in their caches. -/
  shared : s.Quiescent → ∀ pool,
    (∀ slot, slot.pool = pool → s.Allocated blocksPerSlab slot →
      slot ∈ s.held pool ∨ Leads s.next (s.freeList pool) slot) ↔
      ∀ t, (s.cache t).owner = some pool → (s.cache t).head = none

/-- A `compare_exchange_weak` of `pop_` that finds the top it has loaded installs the link that the top still has. -/
def Control.Undisturbed (s : State ι τ) : Control ι → Prop
  | .popSwap pool _ head next => s.freeList pool = some head → s.next head = next
  | _ => True

def Undisturbed (s : State ι τ) : Action ι τ → Prop
  | .advance t => (s.control t).Undisturbed s
  | _ => True

/-- The actions are taken one by one, each undisturbed. -/
def UndisturbedFrom : State ι τ → List (Action ι τ) → Prop
  | _, [] => True
  | s, a :: actions => Undisturbed s a ∧ ∀ s' ∈ step blocksPerSlab s a, UndisturbedFrom s' actions

instance (s : State ι τ) : (c : Control ι) → Decidable (c.Undisturbed s)
  | .popSwap pool _ head next => inferInstanceAs (Decidable (s.freeList pool = some head → s.next head = next))
  | .idle | .flush _ _ | .flushClear _ _ _ | .pushLoad _ _ _ | .pushLink _ _ _ _ | .pushSwap _ _ _ _ | .localPop _ _
  | .localClear _ _ | .construct _ _ | .refill _ _ | .popNext _ _ _ | .refillPush _ _ _ | .growLock _ | .growCheck _
  | .growAllocate _ | .growUnlock _ | .releasePush _ _ => .isTrue trivial

instance (s : State ι τ) : (a : Action ι τ) → Decidable (Undisturbed s a)
  | .advance t => inferInstanceAs (Decidable ((s.control t).Undisturbed s))
  | .acquire _ _ | .release _ _ _ | .construct _ _ | .swapFails _ | .write _ _ _ => .isTrue trivial

instance decidableUndisturbedFrom :
    (s : State ι τ) → (actions : List (Action ι τ)) → Decidable (UndisturbedFrom blocksPerSlab s actions)
  | _, [] => .isTrue trivial
  | s, a :: actions =>
    have := fun s' => decidableUndisturbedFrom s' actions
    inferInstanceAs (Decidable (Undisturbed s a ∧ ∀ s' ∈ step blocksPerSlab s a, UndisturbedFrom blocksPerSlab s' actions))

end Zpc.AsyncObjectPool
