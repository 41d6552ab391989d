import Zpc.ParkingLot

/-!
# Mutex and ConditionVariable

`Mutex`, `Futex` and `ConditionVariable` over the parking lot, for any number of threads
that go on calling them. The words are the atomics that the mutexes and the epochs are; a
mutex is unlocked, or handed to `wait`, by a thread that holds it. A weak compare-exchange
may fail although the word is the expected one. Beside the words the memory records who
holds a mutex, and which calls of `wait` have released it and not returned from the futex.
-/
namespace Zpc.ConcurrencyPrimitive
open Interleaving ParkingLot

def kMask : BitVec 32 := 1

inductive CvStatus
  | noTimeout | timeout
  deriving DecidableEq

/-- A call of `wait` or `wait_for` with the epoch that it has seen. -/
structure WaitCall where
  seq : BitVec 64
  epoch : BitVec 32
  timed : Bool
  call : ℕ

structure Words where
  word : BitVec 64 → BitVec 32
  holders : BitVec 64 → List ℕ
  waiting : BitVec 64 → List ℕ
  nextCall : ℕ

namespace Words
def store (m : Words) (a : BitVec 64) (v : BitVec 32) : Words := { m with word := Function.update m.word a v }

def acquire (m : Words) (t : ℕ) (a : BitVec 64) : Words :=
  { m with holders := Function.update m.holders a (t :: m.holders a) }

/-- The mutex is released, by a call of `wait` or for good. -/
def release (m : Words) (t : ℕ) (a : BitVec 64) : Option WaitCall → Words
  | none => { m with holders := Function.update m.holders a ((m.holders a).erase t) }
  | some w => { m with
    holders := Function.update m.holders a ((m.holders a).erase t)
    waiting := Function.update m.waiting w.seq (w.call :: m.waiting w.seq) }

def leave (m : Words) (w : WaitCall) : Words :=
  { m with waiting := Function.update m.waiting w.seq ((m.waiting w.seq).erase w.call) }

end Words

/-- The actions of thread `t`, one access to a word each. A call of `lock` on behalf of `wait`
carries the status that this returns, a call of `unlock` the call of `wait`. -/
inductive Client
  | idle (t : ℕ)
  | lockLoad (t : ℕ) (a : BitVec 64) (st : Option CvStatus)
  | lockTry (t : ℕ) (a : BitVec 64) (st : Option CvStatus)
  | lockRetry (t : ℕ) (a : BitVec 64) (st : Option CvStatus) (oldState : BitVec 32) (spinCount : ℕ)
  | lockMark (t : ℕ) (a : BitVec 64) (st : Option CvStatus) (oldState : BitVec 32) (spinCount : ℕ)
  | lockReload (t : ℕ) (a : BitVec 64) (st : Option CvStatus) (spinCount : ℕ)
  | lockCas (t : ℕ) (a : BitVec 64) (st : Option CvStatus) (oldState : BitVec 32) (spinCount : ℕ)
  | unlockLoad (t : ℕ) (a : BitVec 64) (w : Option WaitCall)
  | unlockCas (t : ℕ) (a : BitVec 64) (w : Option WaitCall) (oldState : BitVec 32)
  | tryLoad (t : ℕ) (a : BitVec 64)
  | tryCas (t : ℕ) (a : BitVec 64) (state : BitVec 32)
  | waitLoad (t : ℕ) (s a : BitVec 64) (timed : Bool)
  | futexWait (t : ℕ) (a : BitVec 64) (w : WaitCall)
  | futexReturn (t : ℕ) (a : BitVec 64) (w : WaitCall) (r : ParkResult)
  | waitReturn (t : ℕ) (st : CvStatus)
  | notify (t : ℕ) (s : BitVec 64) (all : Bool)
  | notifyAdd (t : ℕ) (s : BitVec 64) (all : Bool) (waiters : List ℕ)
  | notifyReturn (t : ℕ) (s : BitVec 64) (all : Bool) (waiters : List ℕ)

/-- What an idle thread may call. -/
inductive Op
  | lock (a : BitVec 64)
  | unlock (a : BitVec 64)
  | tryLock (a : BitVec 64)
  | wait (s a : BitVec 64) (timed : Bool)
  | notify (s : BitVec 64) (all : Bool)

structure Choice where
  op : Op
  spurious : Bool

def afterLock (t : ℕ) : Option CvStatus → Client
  | none => .idle t
  | some st => .waitReturn t st

def afterUnlock (t : ℕ) (a : BitVec 64) : Option WaitCall → Client
  | none => .idle t
  | some w => .futexWait t a w

/-- `parkFor` as `lock` calls it. -/
def lockPark (t : ℕ) (a : BitVec 64) (st : Option CvStatus) (newState : BitVec 32) : Park Words Client where
  bits := a
  lotid := 0
  data := kMask
  condition m := m.word a = newState
  timed := false
  call := 0
  ret _ := .lockReload t a st 0

/-- `unpark` as `unlock` calls it. -/
def unlockUnpark (t : ℕ) (a : BitVec 64) (w : Option WaitCall) : Unpark Client where
  bits := a
  lotid := 0
  func _ _ := .removeBreak
  ret := afterUnlock t a w

/-- `emulated_futex_wait_for`. -/
def futexPark (t : ℕ) (a : BitVec 64) (w : WaitCall) : Park Words Client where
  bits := w.seq
  lotid := 0
  data := 0xffffffff
  condition m := m.word w.seq = w.epoch
  timed := w.timed
  call := w.call
  ret r := .futexReturn t a w r

/-- The function that `emulated_futex_wake` gives to `unpark`. -/
def wakeFunc (count : ℤ) (wakeMask : BitVec 32) (seen : List (BitVec 32)) (mask : BitVec 32) : UnparkControl :=
  if mask &&& wakeMask = 0 then .retainContinue
  else if 0 < count - ((seen.countP fun d => d &&& wakeMask ≠ 0) + 1) then .removeContinue else .removeBreak

/-- `Futex::wake` as `notify_one` and `notify_all` call it. -/
def notifyUnpark (t : ℕ) (s : BitVec 64) (all : Bool) (waiters : List ℕ) : Unpark Client where
  bits := s
  lotid := 0
  func := wakeFunc (if all then 2147483647 else 1) 0xffffffff
  ret := .notifyReturn t s all waiters

variable (seqs : BitVec 64 → Bool)

/-- `seqs` tells the words of condition variables from those of mutexes. -/
def begin (m : Words) (t : ℕ) : Op → Option Client
  | .lock a => if seqs a then none else some (.lockLoad t a none)
  | .unlock a => if !seqs a ∧ t ∈ m.holders a then some (.unlockLoad t a none) else none
  | .tryLock a => if seqs a then none else some (.tryLoad t a)
  | .wait s a timed => if seqs s ∧ !seqs a ∧ t ∈ m.holders a then some (.waitLoad t s a timed) else none
  | .notify s all => if seqs s then some (.notify t s all) else none

def client : ParkingLot.Client Words Client Choice := fun m k x => match k with
  | .idle t => (begin seqs m t x.op).map fun k => (m, .run k)
  | .lockLoad t a st => some (m, .run (if m.word a = 0 then .lockTry t a st else .lockRetry t a st (m.word a) 0))
  | .lockTry t a st =>
    if m.word a = 0 ∧ !x.spurious then some ((m.store a (0 ||| kMask)).acquire t a, .run (afterLock t st))
    else some (m, .run (.lockRetry t a st (m.word a) 0))
  | .lockRetry t a st oldState spinCount =>
    if oldState &&& kMask ≠ 0 then
      -- up to here the thread pauses or yields
      if spinCount + 1 ≤ 128 then some (m, .run (.lockReload t a st (spinCount + 1)))
      else if oldState ||| kMask ≠ oldState then some (m, .run (.lockMark t a st oldState (spinCount + 1)))
      else some (m, .park (lockPark t a st (oldState ||| kMask)))
    else some (m, .run (.lockCas t a st oldState spinCount))
  | .lockMark t a st oldState spinCount =>
    if m.word a = oldState ∧ !x.spurious then
      some (m.store a (oldState ||| kMask), .park (lockPark t a st (oldState ||| kMask)))
    else some (m, .run (.lockRetry t a st (m.word a) spinCount))
  | .lockReload t a st spinCount => some (m, .run (.lockRetry t a st (m.word a) spinCount))
  | .lockCas t a st oldState spinCount =>
    if m.word a = oldState ∧ !x.spurious then
      some ((m.store a (oldState ||| kMask)).acquire t a, .run (afterLock t st))
    else some (m, .run (.lockRetry t a st (m.word a) spinCount))
  | .unlockLoad t a w => some (m, .run (.unlockCas t a w (m.word a)))
  | .unlockCas t a w oldState =>
    if m.word a = oldState ∧ !x.spurious then
      some ((m.store a (oldState &&& ~~~kMask)).release t a w,
        if oldState &&& kMask ≠ 0 then .unpark (unlockUnpark t a w) else .run (afterUnlock t a w))
    else some (m, .run (.unlockCas t a w (m.word a)))
  | .tryLoad t a => some (m, .run (.tryCas t a (m.word a)))
  | .tryCas t a state =>
    if state ≠ 0 then some (m, .run (.idle t))
    else if m.word a = state ∧ !x.spurious then some ((m.store a (state ||| kMask)).acquire t a, .run (.idle t))
    else some (m, .run (.tryCas t a (m.word a)))
  | .waitLoad t s a timed =>
    some ({ m with nextCall := m.nextCall + 1 }, .run (.unlockLoad t a (some ⟨s, m.word s, timed, m.nextCall⟩)))
  | .futexWait t a w => some (m, .park (futexPark t a w))
  | .futexReturn t a w r =>
    some (m.leave w, .run (.lockLoad t a (some (if r = .timeout then .timeout else .noTimeout))))
  | .waitReturn t _ => some (m, .run (.idle t))
  | .notify t s all => some (m, .run (.notifyAdd t s all (m.waiting s)))
  | .notifyAdd t s all waiters => some (m.store s (m.word s + 1), .unpark (notifyUnpark t s all waiters))
  | .notifyReturn t _ _ _ => some (m, .run (.idle t))

/-- `n` threads, all mutexes free and all epochs zero. -/
def initial (n : ℕ) : Config (Shared Words) (Frame Words Client) :=
  ⟨start ⟨fun _ => 0, fun _ => [], fun _ => [], 0⟩, (List.range n).map fun t => [.client (.idle t)]⟩

end Zpc.ConcurrencyPrimitive
