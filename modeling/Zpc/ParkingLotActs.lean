import Zpc.ParkingLot

/-!
# The actions of the parking lot

One case for each action and outcome, and what the actions leave of the queues and nodes.
-/
namespace Zpc.ParkingLot
open Interleaving

variable {W C X : Type*} {client : Client W C X} {m m' : Shared W} {f : Frame W C} {fs : List (Frame W C)} {x : Bool × X}

/-- What one action does. -/
inductive Acts (client : Client W C X) (m : Shared W) : Frame W C → Shared W → List (Frame W C) → Prop
  | parkFor (p) : Acts client m (.parkFor p) (m.fetchAdd p.queue) [.parkLock p]
  | parkLock (p) (hq : (m.queue p.queue).mtx = false) : Acts client m (.parkLock p) (m.lock p.queue) [.parkCheck p]
  | insert (p) (hp : p.condition m.words = true) :
      Acts client m (.parkCheck p) (m.insertHead p) [.parkUnlock p m.nextNode]
  | refuse (p) (hp : p.condition m.words = false) : Acts client m (.parkCheck p) m [.parkSkip p]
  | parkSkip (p) : Acts client m (.parkSkip p) (m.unlock p.queue) [.parkUncount p]
  | parkUncount (p) : Acts client m (.parkUncount p) (m.fetchSub p.queue) [.client (p.ret .skip)]
  | parkUnlock (p n) : Acts client m (.parkUnlock p n) (m.unlock p.queue) [.waitLock p n]
  | waitLock (p n) : Acts client m (.waitLock p n) ((m.touch n).onNode n fun d => { d with mtx := true })
      [.waitTest p n false]
  | sleep (p n) (hs : (m.node n).signaled = false) :
      Acts client m (.waitTest p n false) ((m.touch n).onNode n fun d => { d with mtx := false }) [.waiting p n]
  | leave (p n timeout) (hs : timeout = true ∨ (m.node n).signaled = true) :
      Acts client m (.waitTest p n timeout) (m.touch n) [.waitUnlock p n timeout]
  | waiting (p n timeout) (ht : timeout = true → p.timed = true) :
      Acts client m (.waiting p n) ((m.touch n).onNode n fun d => { d with mtx := true }) [.waitTest p n timeout]
  | woken (p n) : Acts client m (.waitUnlock p n false) ((m.touch n).onNode n fun d => { d with mtx := false })
      [.client (p.ret .unpark)]
  | timedOut (p n) : Acts client m (.waitUnlock p n true) ((m.touch n).onNode n fun d => { d with mtx := false })
      [.timeoutLock p n]
  | timeoutLock (p n) (hq : (m.queue p.queue).mtx = false) :
      Acts client m (.timeoutLock p n) (m.lock p.queue) [.timeoutCheck p n]
  | tooLate (p n) (hs : (m.node n).signaled = true) :
      Acts client m (.timeoutCheck p n) (m.touch n) [.timeoutUnlock p .unpark]
  | withdraw (p n) (hs : (m.node n).signaled = false) :
      Acts client m (.timeoutCheck p n) ((m.touch n).erase p.queue n) [.timeoutUncount p]
  | timeoutUncount (p) : Acts client m (.timeoutUncount p) (m.fetchSub p.queue) [.timeoutUnlock p .timeout]
  | timeoutUnlock (p r) : Acts client m (.timeoutUnlock p r) (m.unlock p.queue) [.client (p.ret r)]
  | nobody (u) (hc : (m.queue u.queue).count = 0) : Acts client m (.unpark u) m [.client u.ret]
  | unpark (u) (hc : (m.queue u.queue).count ≠ 0) : Acts client m (.unpark u) m [.unparkLock u]
  | unparkLock (u) (hq : (m.queue u.queue).mtx = false) :
      Acts client m (.unparkLock u) (m.lock u.queue) [.unparkScan u [] (m.queue u.queue).list]
  | scanned (u seen) : Acts client m (.unparkScan u seen []) m [.unparkUnlock u]
  | visit (u seen n rest) (hn : (m.node n).key = u.key ∧ (m.node n).lotid = u.lotid) :
      Acts client m (.unparkScan u seen (n :: rest)) (m.touch n) [visit u n (m.node n).data seen rest]
  | pass (u seen n rest) (hn : ¬ ((m.node n).key = u.key ∧ (m.node n).lotid = u.lotid)) :
      Acts client m (.unparkScan u seen (n :: rest)) (m.touch n) [.unparkScan u seen rest]
  | wake (u n last seen rest) : Acts client m (.unparkWake u n last seen rest)
      ((m.touch n).onNode n fun d => { d with signaled := true }) [.unparkErase u n last seen rest]
  | erase (u n last seen rest) : Acts client m (.unparkErase u n last seen rest) (m.erase u.queue n)
      [.unparkUncount u last seen rest]
  | proceed (u seen rest) : Acts client m (.unparkUncount u false seen rest) (m.fetchSub u.queue)
      [.unparkScan u seen rest]
  | finish (u seen rest) : Acts client m (.unparkUncount u true seen rest) (m.fetchSub u.queue) [.unparkUnlock u]
  | unparkUnlock (u) : Acts client m (.unparkUnlock u) (m.unlock u.queue) [.client u.ret]
  | client (k x w nx) (hk : client m.words k x = some (w, nx)) : Acts client m (.client k) { m with words := w } nx.frames

theorem acts_of_code (h : code client m f x = some (m', fs)) : Acts client m f m' fs := by
  cases f with
  | waitTest p n timeout =>
    simp only [code] at h
    split at h <;> cases h
    · rename_i hs
      rw [Bool.and_eq_true, Bool.not_eq_true', Bool.not_eq_true'] at hs
      rw [hs.2]
      exact .sleep p n hs.1
    · rename_i hs
      refine .leave p n timeout ?_
      rw [Bool.and_eq_true, Bool.not_eq_true', Bool.not_eq_true', not_and_or, Bool.not_eq_false, Bool.not_eq_false] at hs
      exact hs.symm
  | waiting p n =>
    simp only [code] at h
    split at h <;> cases h
    exact .waiting p n _ fun ht => (Bool.and_eq_true_iff.mp ht).1
  | waitUnlock p n timeout =>
    cases timeout <;> cases h
    · exact .woken p n
    · exact .timedOut p n
  | unparkScan u seen rest =>
    cases rest with
    | nil => cases h; exact .scanned u seen
    | cons n rest =>
      simp only [code] at h
      split at h <;> cases h
      · exact .visit u seen n rest ‹_›
      · exact .pass u seen n rest ‹_›
  | unparkUncount u last seen rest =>
    cases last <;> cases h
    · exact .proceed u seen rest
    · exact .finish u seen rest
  | client k =>
    obtain ⟨⟨w, nx⟩, hk, h⟩ := Option.map_eq_some_iff.mp h
    cases h
    exact .client k x.2 w nx hk
  | parkLock p | timeoutLock p n | unparkLock u =>
    simp only [code] at h
    split at h <;> cases h
    have hq := Bool.eq_false_iff.mpr ‹_›
    constructor
    exact hq
  | parkCheck p =>
    simp only [code] at h
    split at h <;> cases h
    · exact .insert p ‹_›
    · exact .refuse p (Bool.eq_false_iff.mpr ‹_›)
  | waitLock p n =>
    simp only [code] at h
    split at h <;> cases h
    exact .waitLock p n
  | unparkWake u n last seen rest =>
    simp only [code] at h
    split at h <;> cases h
    exact .wake u n last seen rest
  | timeoutCheck p n =>
    simp only [code] at h
    split at h <;> cases h
    · exact .tooLate p n ‹_›
    · exact .withdraw p n (Bool.eq_false_iff.mpr ‹_›)
  | unpark u =>
    simp only [code] at h
    split at h <;> cases h
    · exact .nobody u ‹_›
    · exact .unpark u ‹_›
  | _ =>
    cases h
    constructor

section Memory
variable {q q' : BitVec 64} {n n' : ℕ}

theorem onQueue_queue (g : WaitQueue → WaitQueue) :
    (m.onQueue q g).queue q' = if q' = q then g (m.queue q') else m.queue q' := by
  refine (Function.update_apply _ _ _ _).trans ?_
  split
  next h => rw [h]
  next => rfl

theorem onNode_node (g : WaitNode → WaitNode) :
    (m.onNode n g).node n' = if n' = n then g (m.node n') else m.node n' := by
  refine (Function.update_apply _ _ _ _).trans ?_
  split
  next h => rw [h]
  next => rfl

@[simp] theorem lock_list : ((m.lock q).queue q').list = (m.queue q').list := by
  rw [Shared.lock, onQueue_queue]; split <;> rfl

@[simp] theorem unlock_list : ((m.unlock q).queue q').list = (m.queue q').list := by
  rw [Shared.unlock, onQueue_queue]; split <;> rfl

@[simp] theorem fetchAdd_list : ((m.fetchAdd q).queue q').list = (m.queue q').list := by
  rw [Shared.fetchAdd, onQueue_queue]; split <;> rfl

@[simp] theorem fetchSub_list : ((m.fetchSub q).queue q').list = (m.queue q').list := by
  rw [Shared.fetchSub, onQueue_queue]; split <;> rfl

@[simp] theorem lock_mtx : ((m.lock q).queue q').mtx = if q' = q then true else (m.queue q').mtx := by
  rw [Shared.lock, onQueue_queue]; split <;> rfl

@[simp] theorem unlock_mtx : ((m.unlock q).queue q').mtx = if q' = q then false else (m.queue q').mtx := by
  rw [Shared.unlock, onQueue_queue]; split <;> rfl

@[simp] theorem fetchAdd_mtx : ((m.fetchAdd q).queue q').mtx = (m.queue q').mtx := by
  rw [Shared.fetchAdd, onQueue_queue]; split <;> rfl

@[simp] theorem fetchSub_mtx : ((m.fetchSub q).queue q').mtx = (m.queue q').mtx := by
  rw [Shared.fetchSub, onQueue_queue]; split <;> rfl

@[simp] theorem lock_count : ((m.lock q).queue q').count = (m.queue q').count := by
  rw [Shared.lock, onQueue_queue]; split <;> rfl

@[simp] theorem unlock_count : ((m.unlock q).queue q').count = (m.queue q').count := by
  rw [Shared.unlock, onQueue_queue]; split <;> rfl

@[simp] theorem fetchAdd_count :
    ((m.fetchAdd q).queue q').count = if q' = q then (m.queue q').count + 1 else (m.queue q').count := by
  rw [Shared.fetchAdd, onQueue_queue]; split <;> rfl

@[simp] theorem fetchSub_count :
    ((m.fetchSub q).queue q').count = if q' = q then (m.queue q').count - 1 else (m.queue q').count := by
  rw [Shared.fetchSub, onQueue_queue]; split <;> rfl

theorem insertHead_queue (p : Park W C) : (m.insertHead p).queue q' =
    if q' = p.queue then { m.queue q' with list := m.nextNode :: (m.queue q').list } else m.queue q' :=
  onQueue_queue (m := m) (q := p.queue) fun d => { d with list := m.nextNode :: d.list }

theorem erase_queue (h : n ∈ (m.queue q).list) : (m.erase q n).queue q' =
    if q' = q then { m.queue q' with list := (m.queue q').list.erase n } else m.queue q' := by
  rw [Shared.erase, if_pos h]
  exact onQueue_queue (m := m) (q := q) fun d => { d with list := d.list.erase n }

@[simp] theorem insertHead_mtx (p : Park W C) : ((m.insertHead p).queue q').mtx = (m.queue q').mtx := by
  rw [insertHead_queue]; split <;> rfl

@[simp] theorem insertHead_count (p : Park W C) : ((m.insertHead p).queue q').count = (m.queue q').count := by
  rw [insertHead_queue]; split <;> rfl

@[simp] theorem insertHead_list (p : Park W C) : ((m.insertHead p).queue q').list =
    if q' = p.queue then m.nextNode :: (m.queue q').list else (m.queue q').list := by
  rw [insertHead_queue]; split <;> rfl

@[simp] theorem erase_mtx : ((m.erase q n).queue q').mtx = (m.queue q').mtx := by
  by_cases h : n ∈ (m.queue q).list
  · rw [erase_queue h]; split <;> rfl
  · rw [Shared.erase, if_neg h]

@[simp] theorem erase_count : ((m.erase q n).queue q').count = (m.queue q').count := by
  by_cases h : n ∈ (m.queue q).list
  · rw [erase_queue h]; split <;> rfl
  · rw [Shared.erase, if_neg h]

@[simp] theorem erase_list :
    ((m.erase q n).queue q').list = if q' = q then (m.queue q').list.erase n else (m.queue q').list := by
  by_cases h : n ∈ (m.queue q).list
  · rw [erase_queue h]; split <;> rfl
  · rw [Shared.erase, if_neg h]
    split
    next hq => rw [hq, List.erase_of_not_mem h]
    next => rfl

@[simp] theorem touch_queue : (m.touch n).queue = m.queue := rfl

@[simp] theorem touch_node : (m.touch n).node = m.node := rfl

@[simp] theorem touch_nextNode : (m.touch n).nextNode = m.nextNode := rfl

@[simp] theorem onNode_queue (g : WaitNode → WaitNode) : (m.onNode n g).queue = m.queue := rfl

@[simp] theorem onNode_nextNode (g : WaitNode → WaitNode) : (m.onNode n g).nextNode = m.nextNode := rfl

@[simp] theorem lock_node : (m.lock q).node = m.node := rfl

@[simp] theorem unlock_node : (m.unlock q).node = m.node := rfl

@[simp] theorem fetchAdd_node : (m.fetchAdd q).node = m.node := rfl

@[simp] theorem fetchSub_node : (m.fetchSub q).node = m.node := rfl

@[simp] theorem lock_nextNode : (m.lock q).nextNode = m.nextNode := rfl

@[simp] theorem unlock_nextNode : (m.unlock q).nextNode = m.nextNode := rfl

@[simp] theorem fetchAdd_nextNode : (m.fetchAdd q).nextNode = m.nextNode := rfl

@[simp] theorem fetchSub_nextNode : (m.fetchSub q).nextNode = m.nextNode := rfl

@[simp] theorem insertHead_nextNode (p : Park W C) : (m.insertHead p).nextNode = m.nextNode + 1 := rfl

theorem insertHead_node (p : Park W C) : (m.insertHead p).node =
    Function.update m.node m.nextNode ⟨p.key, p.lotid, p.data, false, false, p.call, 0⟩ := rfl

theorem insertHead_old (p : Park W C) (h : n < m.nextNode) : (m.insertHead p).node n = m.node n :=
  Function.update_of_ne (Nat.ne_of_lt h) _ _

@[simp] theorem erase_nextNode : (m.erase q n).nextNode = m.nextNode := by
  rw [Shared.erase]
  split <;> rfl

theorem erase_node (h : n ∈ (m.queue q).list) : (m.erase q n).node n' =
    if n' = n then { m.node n' with erased := (m.node n').erased + 1 } else m.node n' := by
  rw [Shared.erase, if_pos h]
  exact onNode_node (m := m.onQueue q fun d => { d with list := d.list.erase n }) fun d => { d with erased := d.erased + 1 }

end Memory

section Places
/-- The queue whose mutex a frame holds. -/
def lockOf : Frame W C → Option (BitVec 64)
  | .parkCheck p | .parkSkip p | .parkUnlock p _ | .timeoutCheck p _ | .timeoutUncount p | .timeoutUnlock p _ =>
    some p.queue
  | .unparkScan u _ _ | .unparkWake u _ _ _ _ | .unparkErase u _ _ _ _ | .unparkUncount u _ _ _ | .unparkUnlock u =>
    some u.queue
  | _ => none

/-- The queue whose counter a frame has raised, or has still to lower, without a node there. -/
def countOf : Frame W C → Option (BitVec 64)
  | .parkLock p | .parkCheck p | .parkSkip p | .parkUncount p | .timeoutUncount p => some p.queue
  | .unparkUncount u _ _ _ => some u.queue
  | _ => none

/-- The node on which a frame waits. -/
def nodeOf : Frame W C → Option ℕ
  | .parkUnlock _ n | .waitLock _ n | .waitTest _ n _ | .waiting _ n | .waitUnlock _ n _ | .timeoutLock _ n
  | .timeoutCheck _ n => some n
  | _ => none

def parkOf : Frame W C → Option (Park W C)
  | .parkFor p | .parkLock p | .parkCheck p | .parkSkip p | .parkUncount p | .parkUnlock p _ | .waitLock p _
  | .waitTest p _ _ | .waiting p _ | .waitUnlock p _ _ | .timeoutLock p _ | .timeoutCheck p _ | .timeoutUncount p
  | .timeoutUnlock p _ => some p
  | _ => none

def unparkOf : Frame W C → Option (Unpark C)
  | .unpark u | .unparkLock u | .unparkScan u _ _ | .unparkWake u _ _ _ _ | .unparkErase u _ _ _ _
  | .unparkUncount u _ _ _ | .unparkUnlock u => some u
  | _ => none

/-- The node that a frame has signaled and is about to erase. -/
def erasing : Frame W C → Option ℕ
  | .unparkErase _ n _ _ _ => some n
  | _ => none

def holds (q : BitVec 64) (f : Frame W C) : ℕ := if lockOf f = some q then 1 else 0

def counted (q : BitVec 64) (f : Frame W C) : ℕ := if countOf f = some q then 1 else 0

def uses (n : ℕ) (f : Frame W C) : ℕ := if nodeOf f = some n then 1 else 0

end Places

section Visit
variable {u : Unpark C} {n : ℕ} {data : BitVec 32} {seen : List (BitVec 32)} {rest : List ℕ}

@[simp] theorem lockOf_visit : lockOf (visit u n data seen rest : Frame W C) = some u.queue := by
  unfold visit
  split <;> rfl

@[simp] theorem countOf_visit : countOf (visit u n data seen rest : Frame W C) = none := by
  unfold visit
  split <;> rfl

@[simp] theorem nodeOf_visit : nodeOf (visit u n data seen rest : Frame W C) = none := by
  unfold visit
  split <;> rfl

@[simp] theorem parkOf_visit : parkOf (visit u n data seen rest : Frame W C) = none := by
  unfold visit
  split <;> rfl

@[simp] theorem unparkOf_visit : unparkOf (visit u n data seen rest : Frame W C) = some u := by
  unfold visit
  split <;> rfl

/-- A call stays with its frame until it returns. -/
inductive Follows (f : Frame W C) : Frame W C → Prop
  | inside (g : Frame W C) (hp : parkOf g = parkOf f) (hu : unparkOf g = unparkOf f) (hg : ∀ k, g ≠ .client k) : Follows f g
  | parked (p : Park W C) (r : ParkResult) (hp : parkOf f = some p) : Follows f (.client (p.ret r))
  | unparked (u : Unpark C) (hu : unparkOf f = some u) : Follows f (.client u.ret)

theorem Acts.follows (h : Acts client m f m' fs) : (∃ k, f = .client k) ∨ m'.words = m.words ∧ ∃ g, fs = [g] ∧ Follows f g := by
  have herase : ∀ (m : Shared W) (q : BitVec 64) (n : ℕ), (m.erase q n).words = m.words := by
    intro m q n
    rw [Shared.erase]
    split <;> rfl
  cases h with
  | client k x w nx hk => exact .inl ⟨k, rfl⟩
  | parkUncount p | woken p n | timeoutUnlock p r => exact .inr ⟨rfl, _, rfl, .parked p _ rfl⟩
  | nobody u hc | unparkUnlock u => exact .inr ⟨rfl, _, rfl, .unparked u rfl⟩
  | visit u seen n rest hn =>
    refine .inr ⟨rfl, _, rfl, .inside _ ?_ ?_ fun k hk => ?_⟩
    · exact parkOf_visit
    · exact unparkOf_visit
    · exact absurd (congrArg unparkOf hk) (by rw [unparkOf_visit]; exact Option.some_ne_none u)
  | withdraw p n hs => exact .inr ⟨herase _ _ _, _, rfl, .inside _ rfl rfl fun _ h => by cases h⟩
  | erase u n last seen rest => exact .inr ⟨herase _ _ _, _, rfl, .inside _ rfl rfl fun _ h => by cases h⟩
  | _ => exact .inr ⟨rfl, _, rfl, .inside _ rfl rfl fun _ h => by cases h⟩

theorem sum_next {g : Frame W C → ℕ} (hg : ∀ f, Idle f → g f = 0) (nx : Next W C) : (nx.frames.map g).sum = 0 := by
  cases nx <;> first | rfl | exact hg _ trivial

theorem holds_idle (q : BitVec 64) (f : Frame W C) (h : Idle f) : holds q f = 0 := by
  cases f <;> first | rfl | exact h.elim

theorem counted_idle (q : BitVec 64) (f : Frame W C) (h : Idle f) : counted q f = 0 := by
  cases f <;> first | rfl | exact h.elim

theorem uses_idle (n : ℕ) (f : Frame W C) (h : Idle f) : uses n f = 0 := by
  cases f <;> first | rfl | exact h.elim

end Visit

end Zpc.ParkingLot
