import Zpc.RingBuffer
import Zpc.ConcurrentQueue

/-!
# The queue of one producer and one consumer

`SpscQueue` of `ConcurrentQueue.hpp`. Every load, store and access to a cell is an action of its own, and the actions of
the producer and of the consumer come in any order. What is popped is what was pushed, in that order, however often the
64-bit counters wrap around.
-/
namespace Zpc
open ConcurrentQueue RingBuffer

structure SpscQueue where
  capacity : ℕ
  mask : ℕ
  chunkCapacity : ℕ
  chunkMask : ℕ
  chunkShift : ℕ
  chunkCount : ℕ

namespace SpscQueue
/-- The constructor; there is no queue when the chunk capacity wraps to zero, by which it divides. -/
def make (requestedCapacity capacity chunkCapacity : UInt64) : Option SpscQueue :=
  let defaultCapacity := nextPowerOfTwo requestedCapacity.toNat
  let capacity := nextPowerOfTwo (if capacity ≠ 0 then capacity.toNat else defaultCapacity)
  let chunkCapacity := balancedChunkCapacity capacity chunkCapacity.toNat
  if chunkCapacity = 0 then none
  else some {
    capacity, chunkCapacity,
    mask := (capacity + 2 ^ 64 - 1) % 2 ^ 64
    chunkMask := (chunkCapacity + 2 ^ 64 - 1) % 2 ^ 64
    chunkShift := log2PowerOfTwo chunkCapacity
    chunkCount := capacity / chunkCapacity}

def cellAt (q : SpscQueue) (position : ℕ) : ℕ × ℕ :=
  let index := position &&& q.mask
  (index >>> q.chunkShift, index &&& q.chunkMask)

variable {α : Type}

/-- A `try_enqueue` under way: what it has loaded, and whether the item is in its cell. -/
inductive Producer (α : Type)
  | idle
  | headLoaded (item : α) (head : ℕ)
  | tailLoaded (item : α) (head tail : ℕ)
  | constructed (item : α) (head : ℕ)

/-- A `try_dequeue` under way. A cell without an object yields nothing. -/
inductive Consumer (α : Type)
  | idle
  | tailLoaded (tail : ℕ)
  | headLoaded (tail head : ℕ)
  | moved (tail : ℕ) (item : Option α)

/-- The counters and the cells, the calls under way, and the items of the calls that returned true. -/
structure State (α : Type) where
  head : ℕ := 0
  tail : ℕ := 0
  cells : ℕ × ℕ → Option α := fun _ => none
  producer : Producer α := .idle
  consumer : Consumer α := .idle
  pushed : List α := []
  popped : List (Option α) := []

inductive Action (α : Type)
  | enqueueLoadHead (item : α)
  | enqueueLoadTail
  | enqueueFull
  | enqueueConstruct
  | enqueueStoreHead
  | dequeueLoadTail
  | dequeueLoadHead
  | dequeueEmpty
  | dequeueMove
  | dequeueStoreTail

def Action.enqueues : Action α → Bool
  | .enqueueLoadHead _ | .enqueueLoadTail | .enqueueFull | .enqueueConstruct | .enqueueStoreHead => true
  | _ => false

/-- One action, where the thread is about to take it. -/
def step (q : SpscQueue) (s : State α) : Action α → Option (State α)
  | .enqueueLoadHead item =>
    match s.producer with
    | .idle => some {s with producer := .headLoaded item s.head}
    | _ => none
  | .enqueueLoadTail =>
    match s.producer with
    | .headLoaded item head => some {s with producer := .tailLoaded item head s.tail}
    | _ => none
  | .enqueueFull =>
    match s.producer with
    | .tailLoaded _ head tail => if q.capacity ≤ distance (2 ^ 64) head tail then some {s with producer := .idle} else none
    | _ => none
  | .enqueueConstruct =>
    match s.producer with
    | .tailLoaded item head tail =>
      if q.capacity ≤ distance (2 ^ 64) head tail then none
      else some {s with
        cells := Function.update s.cells (q.cellAt head) (some item), producer := .constructed item head}
    | _ => none
  | .enqueueStoreHead =>
    match s.producer with
    | .constructed item head =>
      some {s with head := (head + 1) % 2 ^ 64, producer := .idle, pushed := s.pushed ++ [item]}
    | _ => none
  | .dequeueLoadTail =>
    match s.consumer with
    | .idle => some {s with consumer := .tailLoaded s.tail}
    | _ => none
  | .dequeueLoadHead =>
    match s.consumer with
    | .tailLoaded tail => some {s with consumer := .headLoaded tail s.head}
    | _ => none
  | .dequeueEmpty =>
    match s.consumer with
    | .headLoaded tail head => if tail = head then some {s with consumer := .idle} else none
    | _ => none
  | .dequeueMove =>
    match s.consumer with
    | .headLoaded tail head =>
      if tail = head then none
      else some {s with
        cells := Function.update s.cells (q.cellAt tail) none
        consumer := .moved tail (s.cells (q.cellAt tail))}
    | _ => none
  | .dequeueStoreTail =>
    match s.consumer with
    | .moved tail item =>
      some {s with tail := (tail + 1) % 2 ^ 64, consumer := .idle, popped := s.popped ++ [item]}
    | _ => none

/-- The state after a run from the empty queue. -/
def run (q : SpscQueue) (actions : List (Action α)) : Option (State α) := actions.foldlM (step q) {}

/-! ## The layout -/

/-- Powers of two, or no cells at all. -/
inductive Layout (q : SpscQueue) : Prop
  | none (h : q.capacity = 0)
  | cells (k c : ℕ) (hc : c ≤ k) (hk : k < 64) (capacity : q.capacity = 2 ^ k) (chunkCount : q.chunkCount = 2 ^ (k - c))
      (chunkCapacity : q.chunkCapacity = 2 ^ c) (cellAt : ∀ position, q.cellAt position = slot k c position)

theorem mask_eq {k : ℕ} (hk : k < 64) : (2 ^ k + 2 ^ 64 - 1) % 2 ^ 64 = 2 ^ k - 1 := by
  have hpos := Nat.two_pow_pos k
  have hlt : 2 ^ k < 2 ^ 64 := Nat.pow_lt_pow_right (by decide) hk
  rw [show 2 ^ k + 2 ^ 64 - 1 = 2 ^ k - 1 + 2 ^ 64 by omega, Nat.add_mod_right, Nat.mod_eq_of_lt (by omega)]

theorem nextPowerOfTwo_lt {v : ℕ} (hv : v < 2 ^ 64) : nextPowerOfTwo v < 2 ^ 64 := by
  cases nextPowerOfTwo_cases hv with
  | inl h => rw [h]; decide
  | inr h =>
    obtain ⟨k, hk, he⟩ := h
    rw [he]
    exact Nat.pow_lt_pow_right (by decide) hk

theorem layout_of_make {requestedCapacity capacity chunkCapacity : UInt64} {q : SpscQueue}
    (h : make requestedCapacity capacity chunkCapacity = some q) : q.Layout := by
  have hcap : (if capacity ≠ 0 then capacity.toNat else nextPowerOfTwo requestedCapacity.toNat) < 2 ^ 64 := by
    split
    · exact capacity.toNat_lt
    · exact nextPowerOfTwo_lt requestedCapacity.toNat_lt
  unfold make at h
  simp only at h
  generalize (if capacity ≠ 0 then capacity.toNat else nextPowerOfTwo requestedCapacity.toNat) = v at hcap h
  by_cases hne : balancedChunkCapacity (nextPowerOfTwo v) chunkCapacity.toNat = 0
  · rw [if_pos hne] at h
    cases h
  · rw [if_neg hne, Option.some.injEq] at h
    subst h
    cases nextPowerOfTwo_cases hcap with
    | inl hzero => exact .none hzero
    | inr hpow =>
      obtain ⟨k, hk, he⟩ := hpow
      rw [he] at hne
      have ⟨c, hc, hchunk⟩ := balancedChunkCapacity_pow hk chunkCapacity.toNat_lt hne
      refine .cells k c hc hk he ?_ ?_ fun position => ?_
      · simp only [he, hchunk]
        exact Nat.pow_div hc (by decide)
      · simp only [he, hchunk]
      · simp only [cellAt, slot, he, hchunk, log2PowerOfTwo_pow, mask_eq hk, mask_eq (by omega : c < 64),
          Nat.and_two_pow_sub_one_eq_mod, Nat.shiftRight_eq_div_pow]

variable {q : SpscQueue} {s s' : State α}

theorem Layout.capacity_lt (h : q.Layout) : q.capacity < 2 ^ 64 := by
  cases h with
  | none h => rw [h]; decide
  | cells k c hc hk capacity => rw [capacity]; exact Nat.pow_lt_pow_right (by decide) hk

/-- Positions in a window of the capacity have cells of their own. -/
theorem Layout.cellAt_ne (h : q.Layout) {b i j : ℕ} (hi : b ≤ i) (hi' : i < b + q.capacity) (hj : b ≤ j)
    (hj' : j < b + q.capacity) (hne : i ≠ j) : q.cellAt (i % 2 ^ 64) ≠ q.cellAt (j % 2 ^ 64) := by
  cases h with
  | none h => omega
  | cells k c hc hk capacity chunkCount chunkCapacity cellAt =>
    rw [capacity] at hi' hj'
    rw [cellAt, cellAt]
    exact fun he => hne (slot_inj_window (Nat.le_of_lt hk) hi hi' hj hj' he)

/-! ## What an action does -/

inductive Steps (q : SpscQueue) (s : State α) : Action α → State α → Prop
  | enqueueLoadHead {item : α} (h : s.producer = .idle) :
      Steps q s (.enqueueLoadHead item) {s with producer := .headLoaded item s.head}
  | enqueueLoadTail {item : α} {head : ℕ} (h : s.producer = .headLoaded item head) :
      Steps q s .enqueueLoadTail {s with producer := .tailLoaded item head s.tail}
  | enqueueFull {item : α} {head tail : ℕ} (h : s.producer = .tailLoaded item head tail)
      (hfull : q.capacity ≤ distance (2 ^ 64) head tail) : Steps q s .enqueueFull {s with producer := .idle}
  | enqueueConstruct {item : α} {head tail : ℕ} (h : s.producer = .tailLoaded item head tail)
      (hroom : distance (2 ^ 64) head tail < q.capacity) :
      Steps q s .enqueueConstruct {s with
        cells := Function.update s.cells (q.cellAt head) (some item), producer := .constructed item head}
  | enqueueStoreHead {item : α} {head : ℕ} (h : s.producer = .constructed item head) :
      Steps q s .enqueueStoreHead
        {s with head := (head + 1) % 2 ^ 64, producer := .idle, pushed := s.pushed ++ [item]}
  | dequeueLoadTail (h : s.consumer = .idle) : Steps q s .dequeueLoadTail {s with consumer := .tailLoaded s.tail}
  | dequeueLoadHead {tail : ℕ} (h : s.consumer = .tailLoaded tail) :
      Steps q s .dequeueLoadHead {s with consumer := .headLoaded tail s.head}
  | dequeueEmpty {tail : ℕ} (h : s.consumer = .headLoaded tail tail) :
      Steps q s .dequeueEmpty {s with consumer := .idle}
  | dequeueMove {tail head : ℕ} (h : s.consumer = .headLoaded tail head) (hne : tail ≠ head) :
      Steps q s .dequeueMove {s with
        cells := Function.update s.cells (q.cellAt tail) none, consumer := .moved tail (s.cells (q.cellAt tail))}
  | dequeueStoreTail {tail : ℕ} {item : Option α} (h : s.consumer = .moved tail item) :
      Steps q s .dequeueStoreTail
        {s with tail := (tail + 1) % 2 ^ 64, consumer := .idle, popped := s.popped ++ [item]}

theorem steps_of_step {a : Action α} (h : step q s a = some s') : Steps q s a s' := by
  cases a with
  | enqueueLoadHead item =>
    cases hp : s.producer <;> simp only [step, hp, Option.some.injEq, reduceCtorEq] at h
    exact h ▸ .enqueueLoadHead hp
  | enqueueLoadTail =>
    cases hp : s.producer <;> simp only [step, hp, Option.some.injEq, reduceCtorEq] at h
    exact h ▸ .enqueueLoadTail hp
  | enqueueFull =>
    cases hp : s.producer <;> simp only [step, hp, reduceCtorEq] at h
    split at h
    · exact Option.some.inj h ▸ .enqueueFull hp ‹_›
    · cases h
  | enqueueConstruct =>
    cases hp : s.producer <;> simp only [step, hp, reduceCtorEq] at h
    split at h
    · cases h
    · exact Option.some.inj h ▸ .enqueueConstruct hp (Nat.lt_of_not_le ‹_›)
  | enqueueStoreHead =>
    cases hp : s.producer <;> simp only [step, hp, Option.some.injEq, reduceCtorEq] at h
    exact h ▸ .enqueueStoreHead hp
  | dequeueLoadTail =>
    cases hp : s.consumer <;> simp only [step, hp, Option.some.injEq, reduceCtorEq] at h
    exact h ▸ .dequeueLoadTail hp
  | dequeueLoadHead =>
    cases hp : s.consumer <;> simp only [step, hp, Option.some.injEq, reduceCtorEq] at h
    exact h ▸ .dequeueLoadHead hp
  | dequeueEmpty =>
    cases hp : s.consumer <;> simp only [step, hp, reduceCtorEq] at h
    split at h
    · rename_i he
      subst he
      exact Option.some.inj h ▸ .dequeueEmpty hp
    · cases h
  | dequeueMove =>
    cases hp : s.consumer <;> simp only [step, hp, reduceCtorEq] at h
    split at h
    · cases h
    · exact Option.some.inj h ▸ .dequeueMove hp ‹_›
  | dequeueStoreTail =>
    cases hp : s.consumer <;> simp only [step, hp, Option.some.injEq, reduceCtorEq] at h
    exact h ▸ .dequeueStoreTail hp

/-! ## The invariant -/

/-- What a call that has loaded the tail knows: a count of popped items from back then. -/
def Producing (q : SpscQueue) (s : State α) : Prop :=
  match s.producer with
  | .idle => True
  | .headLoaded _ head => head = s.head
  | .tailLoaded _ head tail =>
    head = s.head ∧ ∃ n ≤ s.popped.length, s.pushed.length ≤ n + q.capacity ∧ tail = n % 2 ^ 64
  | .constructed item head =>
    head = s.head ∧ s.pushed.length < s.popped.length + q.capacity ∧ s.cells (q.cellAt head) = some item

def Consuming (s : State α) : Prop :=
  match s.consumer with
  | .idle => True
  | .tailLoaded tail => tail = s.tail
  | .headLoaded tail head =>
    tail = s.tail ∧ ∃ n ≤ s.pushed.length, s.popped.length ≤ n ∧ head = n % 2 ^ 64
  | .moved tail item => tail = s.tail ∧ s.popped.length < s.pushed.length ∧ item = s.pushed[s.popped.length]?

/-- The position's item is out of its cell, but not yet popped. -/
def Vacated (s : State α) (i : ℕ) : Prop :=
  match s.consumer with
  | .moved _ _ => i = s.popped.length
  | _ => False

structure Inv (q : SpscQueue) (s : State α) : Prop where
  head : s.head = s.pushed.length % 2 ^ 64
  tail : s.tail = s.popped.length % 2 ^ 64
  le : s.popped.length ≤ s.pushed.length
  room : s.pushed.length ≤ s.popped.length + q.capacity
  fifo : s.popped = (s.pushed.take s.popped.length).map some
  live : ∀ i, s.popped.length ≤ i → i < s.pushed.length → ¬ Vacated s i → s.cells (q.cellAt (i % 2 ^ 64)) = s.pushed[i]?
  producing : Producing q s
  consuming : Consuming s

theorem inv_init (q : SpscQueue) : Inv q ({} : State α) where
  head := rfl
  tail := rfl
  le := le_rfl
  room := Nat.zero_le _
  fifo := rfl
  live := fun i _ hi => absurd hi (Nat.not_lt_zero i)
  producing := trivial
  consuming := trivial

theorem inv_construct (hq : q.Layout) (h : Inv q s) {item : α} {head tail : ℕ}
    (hp : s.producer = .tailLoaded item head tail) (hroom : distance (2 ^ 64) head tail < q.capacity) :
    Inv q {s with cells := Function.update s.cells (q.cellAt head) (some item), producer := .constructed item head} := by
  have hprod := h.producing
  simp only [Producing, hp] at hprod
  obtain ⟨hhead, n, hn, hcap, htail⟩ := hprod
  have hlt := hq.capacity_lt
  have hle := h.le
  have hfree : s.pushed.length < s.popped.length + q.capacity := by
    rw [hhead, htail, h.head, distance_mod (by omega) (by omega)] at hroom
    omega
  constructor
  · exact h.head
  · exact h.tail
  · exact h.le
  · exact h.room
  · exact h.fifo
  · intro i (hi : s.popped.length ≤ i) (hi' : i < s.pushed.length) hv
    have hne : q.cellAt (i % 2 ^ 64) ≠ q.cellAt head := by
      rw [hhead, h.head]
      exact hq.cellAt_ne hi (by omega) hle hfree (by omega)
    exact (Function.update_of_ne hne ..).trans (h.live i hi hi' hv)
  · exact ⟨hhead, hfree, Function.update_self ..⟩
  · exact h.consuming

theorem inv_storeHead (h : Inv q s) {item : α} {head : ℕ} (hp : s.producer = .constructed item head) :
    Inv q {s with head := (head + 1) % 2 ^ 64, producer := .idle, pushed := s.pushed ++ [item]} := by
  have hprod := h.producing
  simp only [Producing, hp] at hprod
  obtain ⟨hhead, hfree, hcell⟩ := hprod
  have hle := h.le
  constructor
  · simp only [List.length_append, List.length_singleton]
    rw [hhead, h.head, Nat.mod_add_mod]
  · exact h.tail
  · simp only [List.length_append, List.length_singleton]
    omega
  · simp only [List.length_append, List.length_singleton]
    omega
  · simp only
    rw [List.take_append_of_le_length hle]
    exact h.fifo
  · intro i hi hi' hv
    simp only [List.length_append, List.length_singleton] at hi'
    simp only
    by_cases he : i = s.pushed.length
    · rw [he, List.getElem?_concat_length, ← h.head, ← hhead]
      exact hcell
    · rw [List.getElem?_append_left (by omega)]
      exact h.live i hi (by omega) hv
  · trivial
  · have hcons := h.consuming
    unfold Consuming at hcons ⊢
    simp only [List.length_append, List.length_singleton]
    cases hc : s.consumer with
    | idle => trivial
    | tailLoaded tail => rw [hc] at hcons; exact hcons
    | headLoaded tail head =>
      rw [hc] at hcons
      obtain ⟨ht, n, hn, hn', he⟩ := hcons
      exact ⟨ht, n, by omega, hn', he⟩
    | moved tail item' =>
      rw [hc] at hcons
      obtain ⟨ht, hlt, he⟩ := hcons
      exact ⟨ht, by omega, by rw [List.getElem?_append_left hlt]; exact he⟩

theorem inv_move (hq : q.Layout) (h : Inv q s) {tail head : ℕ} (hc : s.consumer = .headLoaded tail head)
    (hne : tail ≠ head) :
    Inv q {s with
      cells := Function.update s.cells (q.cellAt tail) none, consumer := .moved tail (s.cells (q.cellAt tail))} := by
  have hcons := h.consuming
  simp only [Consuming, hc] at hcons
  obtain ⟨htail, n, hn, hn', hhead⟩ := hcons
  have hroom := h.room
  have hlt : s.popped.length < s.pushed.length := by
    have hnp : s.popped.length ≠ n := by
      rintro rfl
      exact hne (by rw [htail, hhead, h.tail])
    omega
  constructor
  · exact h.head
  · exact h.tail
  · exact h.le
  · exact h.room
  · exact h.fifo
  · intro i (hi : s.popped.length ≤ i) (hi' : i < s.pushed.length) hv
    have hvac : ¬ Vacated s i := by simp [Vacated, hc]
    have hip : i ≠ s.popped.length := hv
    have hne' : q.cellAt (i % 2 ^ 64) ≠ q.cellAt tail := by
      rw [htail, h.tail]
      exact hq.cellAt_ne hi (by omega) le_rfl (by omega) hip
    exact (Function.update_of_ne hne' ..).trans (h.live i hi hi' hvac)
  · have hprod := h.producing
    unfold Producing at hprod ⊢
    simp only
    cases hp : s.producer with
    | idle => trivial
    | headLoaded item' head' => rw [hp] at hprod; exact hprod
    | tailLoaded item' head' tail' => rw [hp] at hprod; exact hprod
    | constructed item' head' =>
      rw [hp] at hprod
      obtain ⟨hhead', hfree, hcell⟩ := hprod
      refine ⟨hhead', hfree, ?_⟩
      have hne' : q.cellAt head' ≠ q.cellAt tail := by
        rw [hhead', h.head, htail, h.tail]
        exact hq.cellAt_ne h.le hfree le_rfl (by omega) (by omega)
      exact (Function.update_of_ne hne' ..).trans hcell
  · refine ⟨htail, hlt, ?_⟩
    rw [htail, h.tail]
    exact h.live _ le_rfl hlt (by simp [Vacated, hc])

theorem inv_storeTail (h : Inv q s) {tail : ℕ} {item : Option α} (hc : s.consumer = .moved tail item) :
    Inv q {s with tail := (tail + 1) % 2 ^ 64, consumer := .idle, popped := s.popped ++ [item]} := by
  have hcons := h.consuming
  simp only [Consuming, hc] at hcons
  obtain ⟨htail, hlt, hitem⟩ := hcons
  have hroom := h.room
  constructor
  · exact h.head
  · simp only [List.length_append, List.length_singleton]
    rw [htail, h.tail, Nat.mod_add_mod]
  · simp only [List.length_append, List.length_singleton]
    omega
  · simp only [List.length_append, List.length_singleton]
    omega
  · simp only [List.length_append, List.length_singleton]
    rw [List.take_succ_eq_append_getElem hlt, List.map_append, ← h.fifo, hitem, List.getElem?_eq_getElem hlt]
    rfl
  · intro i hi hi' _
    simp only [List.length_append, List.length_singleton] at hi
    exact h.live i (by omega) hi' (by simp only [Vacated, hc]; omega)
  · have hprod := h.producing
    unfold Producing at hprod ⊢
    simp only [List.length_append, List.length_singleton]
    cases hp : s.producer with
    | idle => trivial
    | headLoaded item' head' => rw [hp] at hprod; exact hprod
    | tailLoaded item' head' tail' =>
      rw [hp] at hprod
      obtain ⟨hhead, n, hn, hcap, ht⟩ := hprod
      exact ⟨hhead, n, by omega, hcap, ht⟩
    | constructed item' head' =>
      rw [hp] at hprod
      obtain ⟨hhead, hfree, hcell⟩ := hprod
      exact ⟨hhead, by omega, hcell⟩
  · trivial

theorem Inv.withProducer (h : Inv q s) {producer : Producer α} (hp : Producing q {s with producer}) :
    Inv q {s with producer} :=
  ⟨h.head, h.tail, h.le, h.room, h.fifo, h.live, hp, h.consuming⟩

theorem Inv.withConsumer (h : Inv q s) {consumer : Consumer α} (hc : Consuming {s with consumer})
    (hv : ∀ i, ¬ Vacated s i) : Inv q {s with consumer} :=
  ⟨h.head, h.tail, h.le, h.room, h.fifo, fun i hi hi' _ => h.live i hi hi' (hv i), h.producing, hc⟩

theorem inv_step (hq : q.Layout) (h : Inv q s) {a : Action α} (hs : step q s a = some s') : Inv q s' := by
  cases steps_of_step hs with
  | enqueueLoadHead hp => exact h.withProducer rfl
  | enqueueLoadTail hp =>
    have hprod := h.producing
    simp only [Producing, hp] at hprod
    exact h.withProducer ⟨hprod, s.popped.length, le_rfl, h.room, h.tail⟩
  | enqueueFull hp => exact h.withProducer trivial
  | enqueueConstruct hp hroom => exact inv_construct hq h hp hroom
  | enqueueStoreHead hp => exact inv_storeHead h hp
  | dequeueLoadTail hc => exact h.withConsumer rfl fun i => by simp [Vacated, hc]
  | dequeueLoadHead hc =>
    have hcons := h.consuming
    simp only [Consuming, hc] at hcons
    exact h.withConsumer ⟨hcons, s.pushed.length, le_rfl, h.le, h.head⟩ fun i => by simp [Vacated, hc]
  | dequeueEmpty hc => exact h.withConsumer trivial fun i => by simp [Vacated, hc]
  | dequeueMove hc hne => exact inv_move hq h hc hne
  | dequeueStoreTail hc => exact inv_storeTail h hc

/-! ## Runs -/

def Full (q : SpscQueue) (s : State α) : Prop := s.pushed.length = s.popped.length + q.capacity

def Empty (s : State α) : Prop := s.pushed.length = s.popped.length

/-- At some moment of the enqueue call that is under way after these actions. -/
def DuringEnqueue (q : SpscQueue) (actions : List (Action α)) (P : State α → Prop) : Prop :=
  ∃ began since s, actions = began ++ since ∧ run q began = some s ∧ s.producer ≠ .idle ∧
    (∀ a ∈ since, a.enqueues = false) ∧ P s

def DuringDequeue (q : SpscQueue) (actions : List (Action α)) (P : State α → Prop) : Prop :=
  ∃ began since s, actions = began ++ since ∧ run q began = some s ∧ s.consumer ≠ .idle ∧
    (∀ a ∈ since, a.enqueues = true) ∧ P s

variable {actions before after : List (Action α)} {a : Action α} {P P' : State α → Prop}

theorem run_concat (h : run q (actions ++ [a]) = some s') : ∃ s, run q actions = some s ∧ step q s a = some s' := by
  rw [run, List.foldlM_append] at h
  cases hs : actions.foldlM (step q) {} with
  | none => simp [hs] at h
  | some s => exact ⟨s, hs, by simpa [hs] using h⟩

theorem run_split (h : run q (before ++ a :: after) = some s') :
    ∃ s s₁, run q before = some s ∧ step q s a = some s₁ := by
  rw [run, List.foldlM_append] at h
  cases hs : before.foldlM (step q) {} with
  | none => simp [hs] at h
  | some s =>
    cases ha : step q s a with
    | none => simp [hs, ha] at h
    | some s₁ => exact ⟨s, s₁, hs, ha⟩

theorem DuringEnqueue.concat (h : DuringEnqueue q actions P) (ha : a.enqueues = false) :
    DuringEnqueue q (actions ++ [a]) P := by
  obtain ⟨began, since, s, rfl, hs, hp, hsince, hP⟩ := h
  refine ⟨began, since ++ [a], s, List.append_assoc .., hs, hp, fun b hb => ?_, hP⟩
  cases List.mem_append.mp hb with
  | inl hb => exact hsince b hb
  | inr hb => rw [List.mem_singleton.mp hb, ha]

theorem DuringDequeue.concat (h : DuringDequeue q actions P) (ha : a.enqueues = true) :
    DuringDequeue q (actions ++ [a]) P := by
  obtain ⟨began, since, s, rfl, hs, hp, hsince, hP⟩ := h
  refine ⟨began, since ++ [a], s, List.append_assoc .., hs, hp, fun b hb => ?_, hP⟩
  cases List.mem_append.mp hb with
  | inl hb => exact hsince b hb
  | inr hb => rw [List.mem_singleton.mp hb, ha]

/-- The counters that the calls under way have loaded were those of one moment of the call. -/
structure Observed (q : SpscQueue) (actions : List (Action α)) (s : State α) : Prop where
  inv : Inv q s
  producer : ∀ item head tail, s.producer = .tailLoaded item head tail →
    DuringEnqueue q actions fun s₁ => Inv q s₁ ∧ s₁.head = head ∧ s₁.tail = tail
  consumer : ∀ tail head, s.consumer = .headLoaded tail head →
    DuringDequeue q actions fun s₁ => Inv q s₁ ∧ s₁.head = head ∧ s₁.tail = tail

theorem Observed.step (hq : q.Layout) (h : Observed q actions s) (hrun : run q (actions ++ [a]) = some s')
    (hs : SpscQueue.step q s a = some s') : Observed q (actions ++ [a]) s' := by
  have hinv := inv_step hq h.inv hs
  refine ⟨hinv, ?_, ?_⟩
  · intro item head tail hp
    cases steps_of_step hs with
    | enqueueLoadTail hp' =>
      have hprod := h.inv.producing
      simp only [Producing, hp'] at hprod
      cases hp
      exact ⟨actions ++ [.enqueueLoadTail], [], _, (List.append_nil _).symm, hrun, nofun,
        fun _ hb => absurd hb List.not_mem_nil, hinv, hprod.symm, rfl⟩
    | enqueueLoadHead | enqueueFull | enqueueConstruct | enqueueStoreHead => cases hp
    | dequeueLoadTail | dequeueLoadHead | dequeueEmpty | dequeueMove | dequeueStoreTail =>
      exact (h.producer item head tail hp).concat rfl
  · intro tail head hc
    cases steps_of_step hs with
    | dequeueLoadHead hc' =>
      have hcons := h.inv.consuming
      simp only [Consuming, hc'] at hcons
      cases hc
      exact ⟨actions ++ [.dequeueLoadHead], [], _, (List.append_nil _).symm, hrun, nofun,
        fun _ hb => absurd hb List.not_mem_nil, hinv, rfl, hcons.symm⟩
    | dequeueLoadTail | dequeueEmpty | dequeueMove | dequeueStoreTail => cases hc
    | enqueueLoadHead | enqueueLoadTail | enqueueFull | enqueueConstruct | enqueueStoreHead =>
      exact (h.consumer tail head hc).concat rfl

theorem observed_of_run (hq : q.Layout) (h : run q actions = some s) : Observed q actions s := by
  induction actions using List.reverseRecOn generalizing s with
  | nil =>
    cases h
    exact ⟨inv_init q, nofun, nofun⟩
  | append_singleton actions a ih =>
    have ⟨s₀, hs₀, ha⟩ := run_concat h
    exact (ih hs₀).step hq h ha

theorem distance_eq (hq : q.Layout) (h : Inv q s) :
    distance (2 ^ 64) s.head s.tail = s.pushed.length - s.popped.length := by
  have hlt := hq.capacity_lt
  have hroom := h.room
  rw [h.head, h.tail, distance_mod h.le (by omega)]

/-- A refused item found the queue full at some moment of its call. -/
theorem full_of_enqueueFull (hq : q.Layout) (h : Observed q before s) (hs : step q s .enqueueFull = some s') :
    DuringEnqueue q before (Full q) := by
  cases steps_of_step hs with
  | enqueueFull hp hfull =>
    obtain ⟨began, since, s₁, he, hs₁, hp₁, hsince, hinv, rfl, rfl⟩ := h.producer _ _ _ hp
    refine ⟨began, since, s₁, he, hs₁, hp₁, hsince, ?_⟩
    rw [distance_eq hq hinv] at hfull
    have hroom := hinv.room
    have hle := hinv.le
    unfold Full
    omega

theorem empty_of_dequeueEmpty (hq : q.Layout) (h : Observed q before s) (hs : step q s .dequeueEmpty = some s') :
    DuringDequeue q before Empty := by
  cases steps_of_step hs with
  | dequeueEmpty hc =>
    obtain ⟨began, since, s₁, he, hs₁, hc₁, hsince, hinv, hhead, htail⟩ := h.consumer _ _ hc
    refine ⟨began, since, s₁, he, hs₁, hc₁, hsince, ?_⟩
    have hdist := distance_eq hq hinv
    have hroom := hinv.room
    have hle := hinv.le
    rw [hhead, htail, distance, Nat.add_sub_cancel_left, Nat.mod_self] at hdist
    unfold Empty
    omega

/-- In every run the popped items are the first of the pushed ones, no more than the capacity are in between, a call
that refuses an item has seen the queue full and one that finds none has seen it empty. -/
theorem run_fifo {requestedCapacity capacity chunkCapacity : UInt64}
    (hq : make requestedCapacity capacity chunkCapacity = some q) (h : run q actions = some s) :
    s.popped <+: s.pushed.map some ∧ s.pushed.length - s.popped.length ≤ q.capacity ∧
      (∀ before after, actions = before ++ .enqueueFull :: after → DuringEnqueue q before (Full q)) ∧
      ∀ before after, actions = before ++ .dequeueEmpty :: after → DuringDequeue q before Empty := by
  have hl := layout_of_make hq
  have hinv := (observed_of_run hl h).inv
  refine ⟨?_, ?_, ?_, ?_⟩
  · rw [hinv.fifo, List.map_take]
    exact List.take_prefix ..
  · have := hinv.room
    omega
  · rintro before after rfl
    have ⟨s₀, s₁, hs₀, hs₁⟩ := run_split h
    exact full_of_enqueueFull hl (observed_of_run hl hs₀) hs₁
  · rintro before after rfl
    have ⟨s₀, s₁, hs₀, hs₁⟩ := run_split h
    exact empty_of_dequeueEmpty hl (observed_of_run hl hs₀) hs₁

/-- A queue of one cell: the second item is refused, and both threads are in the middle of a call. -/
def shared : List (Action ℕ) :=
  [.enqueueLoadHead 5, .enqueueLoadTail, .dequeueLoadTail, .enqueueConstruct, .enqueueStoreHead, .enqueueLoadHead 6,
    .enqueueLoadTail, .dequeueLoadHead, .dequeueMove, .enqueueFull, .dequeueStoreTail, .dequeueLoadTail,
    .dequeueLoadHead, .dequeueEmpty]

theorem run_fifo_shared : ∃ q, make 1024 1 0 = some q ∧ ∃ s, run q shared = some s ∧ s.popped = [some 5] ∧
    s.popped <+: s.pushed.map some := by
  have hmake : make 1024 1 0 = some ⟨1, 0, 1, 0, 0, 1⟩ := by
    have hnext : nextPowerOfTwo 1 = 1 := rfl
    have hbal : balancedChunkCapacity 1 0 = 1 := by
      have hb : balance 1 1 = 1 := by rw [balance]; rfl
      simp [balancedChunkCapacity, hb, minChunkCapacity, maxChunkCapacity, hnext]
    have hlog : log2PowerOfTwo 1 = 0 := log2PowerOfTwo_pow 0
    simp [make, hnext, hbal, hlog]
  have hrun : ∃ s, run ⟨1, 0, 1, 0, 0, 1⟩ shared = some s ∧ s.popped = [some 5] := ⟨_, rfl, rfl⟩
  obtain ⟨s, hs, hpopped⟩ := hrun
  exact ⟨_, hmake, s, hs, hpopped, (run_fifo hmake hs).1⟩

end SpscQueue

end Zpc
