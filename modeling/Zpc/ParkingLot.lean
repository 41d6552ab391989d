import Zpc.BitMixing
import Zpc.Interleaving
import Mathlib.Tactic.Ring

/-!
# The parking lot

`parkFor` and `unpark` over the static table of wait queues. Every action is one access to
shared memory: an atomic operation, taking or releasing a mutex, or what is done while a
queue's mutex is held. What the callers do beside it is a parameter: their own shared
words, their frames, and a step function on them. A wait node is named by a number that
is never given again; `misused` records that a node was read, locked or unlocked after
`erase` had deleted it, and the deleted node is then seen as it was left.
-/
namespace Zpc.ParkingLot
open Interleaving BitMixing

def twangMix64 (bits : BitVec 64) : BitVec 64 :=
  let key := ~~~bits + (bits <<< 21)
  let key := key ^^^ (key >>> 24)
  let key := key + (key <<< 3) + (key <<< 8)
  let key := key ^^^ (key >>> 14)
  let key := key + (key <<< 2) + (key <<< 4)
  let key := key ^^^ (key >>> 28)
  key + (key <<< 31)

/-- Different addresses have different keys. -/
theorem twangMix64_injective : Function.Injective twangMix64 := by
  have hadd : Function.Injective fun x : BitVec 64 => ~~~x + (x <<< 21) := by
    intro x y hxy
    have hmul : ∀ x : BitVec 64, ~~~x + (x <<< 21) + 1#64 = x * 2097151#64 := by
      intro x
      have hneg := BitVec.neg_eq_not_add x
      rw [BitVec.shiftLeft_eq_mul_twoPow, add_right_comm, ← hneg]
      have hc : BitVec.twoPow 64 21 = 2097151#64 + 1 := by decide
      rw [hc]
      ring
    refine mul_injective (c := 2097151#64) (d := 9223367638806167551#64) (by decide) ?_
    show x * 2097151#64 = y * 2097151#64
    rw [← hmul, ← hmul]
    exact congrArg (· + 1#64) hxy
  have hmul : ∀ (i j : ℕ) (c d : BitVec 64), 1 + BitVec.twoPow 64 i + BitVec.twoPow 64 j = c → c * d = 1#64 →
      Function.Injective fun x : BitVec 64 => x + (x <<< i) + (x <<< j) := by
    intro i j c d hc hd
    have heq : (fun x : BitVec 64 => x + (x <<< i) + (x <<< j)) = fun x => x * c := by
      funext x
      rw [BitVec.shiftLeft_eq_mul_twoPow, BitVec.shiftLeft_eq_mul_twoPow, ← hc]
      ring
    rw [heq]
    exact mul_injective hd
  have hlast : Function.Injective fun x : BitVec 64 => x + (x <<< 31) := by
    have heq : (fun x : BitVec 64 => x + (x <<< 31)) = fun x => x * 2147483649#64 := by
      funext x
      have hc : BitVec.twoPow 64 31 = 2147483649#64 - 1 := by decide
      rw [BitVec.shiftLeft_eq_mul_twoPow, hc]
      ring
    rw [heq]
    exact mul_injective (d := 4611686016279904257#64) (by decide)
  exact hlast.comp ((xorShift_injective (by decide)).comp
    ((hmul 2 4 21#64 14933078535860113213#64 (by decide) (by decide)).comp ((xorShift_injective (by decide)).comp
      ((hmul 3 8 265#64 15244667743933553977#64 (by decide) (by decide)).comp
        ((xorShift_injective (by decide)).comp hadd)))))

/-- The index of `get_queue` among the 4096 queues. -/
def getQueue (key : BitVec 64) : BitVec 64 := key &&& 4095

inductive UnparkControl
  | retainContinue | removeContinue | retainBreak | removeBreak
  deriving DecidableEq

inductive ParkResult
  | skip | unpark | timeout
  deriving DecidableEq

variable (W C : Type*)

/-- A call of `parkFor`: `timed` when a timeout is given, `ret` what its caller goes on with;
`call` only names the call. -/
structure Park where
  bits : BitVec 64
  lotid : ℕ
  data : BitVec 32
  condition : W → Bool
  timed : Bool
  call : ℕ
  ret : ParkResult → C

/-- A call of `unpark`: `func` sees the data of a node after those that it was called with before. -/
structure Unpark where
  bits : BitVec 64
  lotid : ℕ
  func : List (BitVec 32) → BitVec 32 → UnparkControl
  ret : C

structure WaitNode where
  key : BitVec 64
  lotid : ℕ
  data : BitVec 32
  signaled : Bool
  mtx : Bool
  /-- The call of `parkFor` that the node stands for. -/
  call : ℕ
  /-- How often the node was deleted. -/
  erased : ℕ

structure WaitQueue where
  mtx : Bool
  list : List ℕ
  count : ℕ

structure Shared where
  words : W
  queue : BitVec 64 → WaitQueue
  node : ℕ → WaitNode
  nextNode : ℕ
  misused : Bool

variable {W C}

def Park.key (p : Park W C) : BitVec 64 := twangMix64 p.bits

def Park.queue (p : Park W C) : BitVec 64 := getQueue p.key

def Unpark.key (u : Unpark C) : BitVec 64 := twangMix64 u.bits

def Unpark.queue (u : Unpark C) : BitVec 64 := getQueue u.key

namespace Shared
def onQueue (m : Shared W) (q : BitVec 64) (g : WaitQueue → WaitQueue) : Shared W :=
  { m with queue := Function.update m.queue q (g (m.queue q)) }

def onNode (m : Shared W) (n : ℕ) (g : WaitNode → WaitNode) : Shared W :=
  { m with node := Function.update m.node n (g (m.node n)) }

def lock (m : Shared W) (q : BitVec 64) : Shared W := m.onQueue q fun d => { d with mtx := true }

def unlock (m : Shared W) (q : BitVec 64) : Shared W := m.onQueue q fun d => { d with mtx := false }

def fetchAdd (m : Shared W) (q : BitVec 64) : Shared W := m.onQueue q fun d => { d with count := d.count + 1 }

def fetchSub (m : Shared W) (q : BitVec 64) : Shared W := m.onQueue q fun d => { d with count := d.count - 1 }

def insertHead (m : Shared W) (p : Park W C) : Shared W :=
  { m.onQueue p.queue fun d => { d with list := m.nextNode :: d.list } with
    node := Function.update m.node m.nextNode ⟨p.key, p.lotid, p.data, false, false, p.call, 0⟩
    nextNode := m.nextNode + 1 }

def erase (m : Shared W) (q : BitVec 64) (n : ℕ) : Shared W :=
  if n ∈ (m.queue q).list then
    (m.onQueue q fun d => { d with list := d.list.erase n }).onNode n fun d => { d with erased := d.erased + 1 }
  else m

/-- Any use of a node. -/
def touch (m : Shared W) (n : ℕ) : Shared W := { m with misused := m.misused || decide (0 < (m.node n).erased) }

end Shared

/-- The actions of both functions, in the order in which they come; `waitFor` runs from
`waitLock` to `waitUnlock`, `true` standing for the status timeout. -/
inductive Frame (W C : Type*)
  | parkFor (p : Park W C)
  | parkLock (p : Park W C)
  | parkCheck (p : Park W C)
  | parkSkip (p : Park W C)
  | parkUncount (p : Park W C)
  | parkUnlock (p : Park W C) (n : ℕ)
  | waitLock (p : Park W C) (n : ℕ)
  | waitTest (p : Park W C) (n : ℕ) (timeout : Bool)
  | waiting (p : Park W C) (n : ℕ)
  | waitUnlock (p : Park W C) (n : ℕ) (timeout : Bool)
  | timeoutLock (p : Park W C) (n : ℕ)
  | timeoutCheck (p : Park W C) (n : ℕ)
  | timeoutUncount (p : Park W C)
  | timeoutUnlock (p : Park W C) (r : ParkResult)
  | unpark (u : Unpark C)
  | unparkLock (u : Unpark C)
  | unparkScan (u : Unpark C) (seen : List (BitVec 32)) (rest : List ℕ)
  | unparkWake (u : Unpark C) (n : ℕ) (last : Bool) (seen : List (BitVec 32)) (rest : List ℕ)
  | unparkErase (u : Unpark C) (n : ℕ) (last : Bool) (seen : List (BitVec 32)) (rest : List ℕ)
  | unparkUncount (u : Unpark C) (last : Bool) (seen : List (BitVec 32)) (rest : List ℕ)
  | unparkUnlock (u : Unpark C)
  | client (c : C)

/-- What a frame of the caller turns into. -/
inductive Next (W C : Type*)
  | done
  | run (c : C)
  | park (p : Park W C)
  | unpark (u : Unpark C)

def Next.frames : Next W C → List (Frame W C)
  | .done => []
  | .run c => [.client c]
  | .park p => [.parkFor p]
  | .unpark u => [.unpark u]

/-- The callers: a step function on their words. -/
abbrev Client (W C X : Type*) := W → C → X → Option (W × Next W C)

/-- The loop of `unpark` at a node that is its own. -/
def visit (u : Unpark C) (n : ℕ) (data : BitVec 32) (seen : List (BitVec 32)) (rest : List ℕ) : Frame W C :=
  match u.func seen data with
  | .retainContinue => .unparkScan u (seen ++ [data]) rest
  | .removeContinue => .unparkWake u n false (seen ++ [data]) rest
  | .retainBreak => .unparkUnlock u
  | .removeBreak => .unparkWake u n true (seen ++ [data]) rest

variable {X : Type*}

/-- The choice says whether a wait that may time out does so, and what the caller does. -/
def code (client : Client W C X) : Code (Shared W) (Frame W C) (Bool × X) := fun m f x => match f with
  | .parkFor p => some (m.fetchAdd p.queue, [.parkLock p])
  | .parkLock p => if (m.queue p.queue).mtx then none else some (m.lock p.queue, [.parkCheck p])
  | .parkCheck p =>
    if p.condition m.words then some (m.insertHead p, [.parkUnlock p m.nextNode]) else some (m, [.parkSkip p])
  | .parkSkip p => some (m.unlock p.queue, [.parkUncount p])
  | .parkUncount p => some (m.fetchSub p.queue, [.client (p.ret .skip)])
  | .parkUnlock p n => some (m.unlock p.queue, [.waitLock p n])
  | .waitLock p n =>
    if (m.node n).mtx then none
    else some ((m.touch n).onNode n fun d => { d with mtx := true }, [.waitTest p n false])
  | .waitTest p n timeout =>
    if !(m.node n).signaled && !timeout then
      some ((m.touch n).onNode n fun d => { d with mtx := false }, [.waiting p n])
    else some (m.touch n, [.waitUnlock p n timeout])
  | .waiting p n =>
    if (m.node n).mtx then none
    else some ((m.touch n).onNode n fun d => { d with mtx := true }, [.waitTest p n (p.timed && x.1)])
  | .waitUnlock p n timeout =>
    some ((m.touch n).onNode n fun d => { d with mtx := false },
      [if timeout then .timeoutLock p n else .client (p.ret .unpark)])
  | .timeoutLock p n => if (m.queue p.queue).mtx then none else some (m.lock p.queue, [.timeoutCheck p n])
  | .timeoutCheck p n =>
    if (m.node n).signaled then some (m.touch n, [.timeoutUnlock p .unpark])
    else some ((m.touch n).erase p.queue n, [.timeoutUncount p])
  | .timeoutUncount p => some (m.fetchSub p.queue, [.timeoutUnlock p .timeout])
  | .timeoutUnlock p r => some (m.unlock p.queue, [.client (p.ret r)])
  | .unpark u => if (m.queue u.queue).count = 0 then some (m, [.client u.ret]) else some (m, [.unparkLock u])
  | .unparkLock u =>
    if (m.queue u.queue).mtx then none else some (m.lock u.queue, [.unparkScan u [] (m.queue u.queue).list])
  | .unparkScan u _ [] => some (m, [.unparkUnlock u])
  | .unparkScan u seen (n :: rest) =>
    if (m.node n).key = u.key ∧ (m.node n).lotid = u.lotid then
      some (m.touch n, [visit u n (m.node n).data seen rest])
    else some (m.touch n, [.unparkScan u seen rest])
  | .unparkWake u n last seen rest =>
    if (m.node n).mtx then none
    else some ((m.touch n).onNode n fun d => { d with signaled := true }, [.unparkErase u n last seen rest])
  | .unparkErase u n last seen rest => some (m.erase u.queue n, [.unparkUncount u last seen rest])
  | .unparkUncount u last seen rest =>
    some (m.fetchSub u.queue, [if last then .unparkUnlock u else .unparkScan u seen rest])
  | .unparkUnlock u => some (m.unlock u.queue, [.client u.ret])
  | .client c => (client m.words c x.2).map fun r => ({ m with words := r.1 }, r.2.frames)

/-- No queue has been used. -/
def start (w : W) : Shared W :=
  ⟨w, fun _ => ⟨false, [], 0⟩, fun _ => ⟨0, 0, 0, false, false, 0, 0⟩, 0, false⟩

/-- Threads that have not begun any call, or are about to. -/
def Idle : Frame W C → Prop
  | .client _ | .parkFor _ | .unpark _ => True
  | _ => False

end Zpc.ParkingLot
