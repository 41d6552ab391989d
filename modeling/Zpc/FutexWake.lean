import Zpc.ParkingLotLifetime

/-!
# Waking through the parking lot

`emulated_futex_wake` is an `unpark` whose callback counts the nodes that it has met. From the time it takes the mutex of
the queue until it releases it, the list of the queue changes only through it.
-/
namespace Zpc.ParkingLot
open Interleaving

variable {W C X : Type*}

section Definitions
def meets (wakeMask mask : BitVec 32) : Bool := decide (mask &&& wakeMask ≠ 0)

/-- `emulated_futex_wake`; `count` and `woken` change with each node that meets the mask. The default count is the
greatest `int`. -/
def futexWake (lot : ℕ) (addr : BitVec 64) (count : ℕ) (wakeMask : BitVec 32) (ret : C) : Unpark C where
  bits := addr
  lotid := lot
  func seen mask :=
    if mask &&& wakeMask = 0 then .retainContinue
    else if (0 : ℤ) < count - (seen.countP (meets wakeMask) + 1) then .removeContinue
    else .removeBreak
  ret := ret

/-- The node waits at the address, with a mask that meets the given one. -/
def waitsAt (m : Shared W) (lot : ℕ) (addr : BitVec 64) (wakeMask : BitVec 32) (x : ℕ) : Bool :=
  decide ((m.node x).key = twangMix64 addr ∧ (m.node x).lotid = lot) && meets wakeMask (m.node x).data

/-- The mutex of the queue is not released at the end of an `unpark`. -/
def keepsLock (q : BitVec 64) : Guard (Shared W) (Frame W C) := fun _ f => match f with
  | .unparkUnlock u => u.queue ≠ q
  | _ => True

instance (q : BitVec 64) (c : Config (Shared W) (Frame W C)) (f : Frame W C) : Decidable (keepsLock q c f) := by
  unfold keepsLock
  split <;> infer_instance

/-- The nodes of the list up to `rest` have been visited, and the marked ones are signaled. -/
structure Span (m₀ m : Shared W) (q : BitVec 64) (sel : ℕ → Bool) (visited rest marked : List ℕ) : Prop where
  all : (m₀.queue q).list = visited ++ rest
  list : (m.queue q).list = (visited.filter fun x => !sel x) ++ rest
  next : m₀.nextNode ≤ m.nextNode
  later : ∀ x ∈ (m₀.queue q).list, (m₀.node x).Later (m.node x)
  signaled : ∀ x ∈ (m₀.queue q).list, ((m.node x).signaled = true ↔ x ∈ marked)

/-- How far the wake has come that found the memory `m₀`. -/
def Waking (m₀ : Shared W) (u : Unpark C) (sel : ℕ → Bool) (count : ℕ) (wakeMask : BitVec 32) (m : Shared W) :
    Frame W C → Prop
  | .unparkScan u' seen rest => u' = u ∧ ∃ visited, Span m₀ m u.queue sel visited rest (visited.filter sel) ∧
      seen.countP (meets wakeMask) = (visited.filter sel).length ∧ (visited.filter sel).length < count
  | .unparkWake u' x last seen rest => u' = u ∧ sel x = true ∧ ∃ visited,
      Span m₀ m u.queue sel visited (x :: rest) (visited.filter sel) ∧
      seen.countP (meets wakeMask) = (visited.filter sel).length + 1 ∧ (visited.filter sel).length + 1 ≤ count ∧
      (last = true ↔ (visited.filter sel).length + 1 = count)
  | .unparkErase u' x last seen rest => u' = u ∧ sel x = true ∧ ∃ visited,
      Span m₀ m u.queue sel visited (x :: rest) (x :: visited.filter sel) ∧
      seen.countP (meets wakeMask) = (visited.filter sel).length + 1 ∧ (visited.filter sel).length + 1 ≤ count ∧
      (last = true ↔ (visited.filter sel).length + 1 = count)
  | .unparkUncount u' last seen rest => u' = u ∧ ∃ visited, Span m₀ m u.queue sel visited rest (visited.filter sel) ∧
      seen.countP (meets wakeMask) = (visited.filter sel).length ∧ (visited.filter sel).length ≤ count ∧
      (last = true ↔ (visited.filter sel).length = count)
  | .unparkUnlock u' => u' = u ∧ ∃ visited rest, Span m₀ m u.queue sel visited rest (visited.filter sel) ∧
      (rest = [] ∧ (visited.filter sel).length ≤ count ∨ (visited.filter sel).length = count)
  | _ => False

/-- A wait that has raised the counter, and has not yet taken the mutex or lowered the counter again. -/
def inFlight (q : BitVec 64) : Frame W C → ℕ
  | .parkLock p | .parkUncount p => if p.queue = q then 1 else 0
  | _ => 0

end Definitions

section Wake
variable {client : Client W C X} {c c' : Config (Shared W) (Frame W C)} {m₀ m m' : Shared W} {f g : Frame W C}
  {fs : List (Frame W C)} {x : Bool × X} {lot count : ℕ} {addr : BitVec 64} {wakeMask : BitVec 32} {ret : C}
  {q : BitVec 64} {sel : ℕ → Bool} {visited rest marked : List ℕ} {u : Unpark C}

theorem WaitNode.Later.trans {d d' d'' : WaitNode} (h : d.Later d') (h' : d'.Later d'') : d.Later d'' :=
  ⟨h'.key.trans h.key, h'.lotid.trans h.lotid, h'.data.trans h.data, h'.call.trans h.call, fun hs =>
    h'.signaled (h.signaled hs)⟩

theorem Waking.lockOf (h : Waking m₀ u sel count wakeMask m g) : lockOf g = some u.queue := by
  cases g <;> first | exact h.elim | (obtain ⟨rfl, -⟩ := h; rfl)

theorem Waking.imp (h : Waking m₀ u sel count wakeMask m g)
    (hspan : ∀ visited rest marked, Span m₀ m u.queue sel visited rest marked →
      Span m₀ m' u.queue sel visited rest marked) : Waking m₀ u sel count wakeMask m' g := by
  cases g with
  | unparkScan u' seen rest =>
    obtain ⟨hu, visited, hs, hrest⟩ := h
    exact ⟨hu, visited, hspan _ _ _ hs, hrest⟩
  | unparkWake u' y last seen rest =>
    obtain ⟨hu, hy, visited, hs, hrest⟩ := h
    exact ⟨hu, hy, visited, hspan _ _ _ hs, hrest⟩
  | unparkErase u' y last seen rest =>
    obtain ⟨hu, hy, visited, hs, hrest⟩ := h
    exact ⟨hu, hy, visited, hspan _ _ _ hs, hrest⟩
  | unparkUncount u' last seen rest =>
    obtain ⟨hu, visited, hs, hrest⟩ := h
    exact ⟨hu, visited, hspan _ _ _ hs, hrest⟩
  | unparkUnlock u' =>
    obtain ⟨hu, visited, rest, hs, hrest⟩ := h
    exact ⟨hu, visited, rest, hspan _ _ _ hs, hrest⟩
  | _ => exact h.elim

theorem Span.of_eq (h : Span m₀ m q sel visited rest marked) (hlist : (m'.queue q).list = (m.queue q).list)
    (hnode : m'.node = m.node) (hnext : m'.nextNode = m.nextNode) : Span m₀ m' q sel visited rest marked :=
  ⟨h.all, hlist.trans h.list, hnext ▸ h.next, fun y hy => by rw [hnode]; exact h.later y hy, fun y hy => by
    rw [hnode]; exact h.signaled y hy⟩

/-- A node that is not selected stays. -/
theorem Span.pass {y : ℕ} (h : Span m₀ m q sel visited (y :: rest) (visited.filter sel)) (hy : sel y = false) :
    Span m₀ m q sel (visited ++ [y]) rest ((visited ++ [y]).filter sel) ∧
      ((visited ++ [y]).filter sel).length = (visited.filter sel).length := by
  have hfilter : (visited ++ [y]).filter sel = visited.filter sel := by
    rw [List.filter_append, List.filter_singleton, hy]
    exact List.append_nil _
  refine ⟨⟨?_, ?_, h.next, h.later, hfilter ▸ h.signaled⟩, congrArg List.length hfilter⟩
  · rw [h.all, List.append_assoc, List.singleton_append]
  · rw [h.list, List.filter_append, List.filter_singleton, hy, List.append_assoc]
    rfl

/-- A node that is selected leaves the list, and has been signaled. -/
theorem Span.erase {y : ℕ} (h : Span m₀ m q sel visited (y :: rest) (y :: visited.filter sel)) (hy : sel y = true) :
    Span m₀ (m.erase q y) q sel (visited ++ [y]) rest ((visited ++ [y]).filter sel) ∧
      ((visited ++ [y]).filter sel).length = (visited.filter sel).length + 1 := by
  have hin : y ∈ (m.queue q).list := by
    rw [h.list]
    exact List.mem_append_right _ List.mem_cons_self
  have hout : y ∉ visited.filter fun z => !sel z := fun hmem => by
    have hfalse := (List.mem_filter.mp hmem).2
    rw [hy] at hfalse
    cases hfalse
  have hfilter : (visited ++ [y]).filter sel = visited.filter sel ++ [y] := by
    rw [List.filter_append, List.filter_singleton, hy]
    rfl
  have hnode : ∀ z, ((m.erase q y).node z).signaled = (m.node z).signaled := fun z => by
    rw [erase_node hin]
    split
    next => rfl
    next => rfl
  refine ⟨⟨?_, ?_, ?_, fun z hz => (h.later z hz).trans erase_later, fun z hz => ?_⟩, ?_⟩
  · rw [h.all, List.append_assoc, List.singleton_append]
  · rw [erase_list, if_pos rfl, h.list, List.erase_append_right _ hout, List.erase_cons_head, List.filter_append,
      List.filter_singleton, hy]
    rw [Bool.not_true, cond_false, List.append_nil]
  · rw [erase_nextNode]
    exact h.next
  · rw [hnode, h.signaled z hz, hfilter, List.mem_append, List.mem_singleton, List.mem_cons, or_comm]
  · rw [hfilter, List.length_append]
    rfl

theorem Span.mem (h : Span m₀ m q sel visited rest marked) {y : ℕ} (hy : y ∈ rest) : y ∈ (m₀.queue q).list :=
  h.all ▸ List.mem_append_right _ hy

theorem futexWake_func (seen : List (BitVec 32)) (mask : BitVec 32) :
    (futexWake lot addr count wakeMask ret).func seen mask =
      if meets wakeMask mask then
        if seen.countP (meets wakeMask) + 1 < count then .removeContinue else .removeBreak
      else .retainContinue := by
  show (if mask &&& wakeMask = 0 then _ else _) = _
  rw [meets]
  by_cases h0 : mask &&& wakeMask = 0
  · rw [if_pos h0, if_neg (by simp [h0])]
  · rw [if_neg h0, if_pos (decide_eq_true h0)]
    split
    next hlt => rw [if_pos (by omega)]
    next hge => rw [if_neg (by omega)]

/-- What the wake does in one action. -/
theorem Waking.acts
    (h : Waking m₀ (futexWake lot addr count wakeMask ret) (waitsAt m₀ lot addr wakeMask) count wakeMask m f)
    (ha : Acts client m f m' fs)
    (hf : ∀ u, f = .unparkUnlock u → u.queue ≠ (futexWake lot addr count wakeMask ret).queue) :
    ∃ g, fs = [g] ∧
      Waking m₀ (futexWake lot addr count wakeMask ret) (waitsAt m₀ lot addr wakeMask) count wakeMask m' g := by
  cases ha with
  | scanned u seen =>
    obtain ⟨hu, visited, hs, -, hlt⟩ := h
    exact ⟨_, rfl, hu, visited, [], hs, .inl ⟨rfl, hlt.le⟩⟩
  | visit u seen y rest hy =>
    obtain ⟨rfl, visited, hs, hseen, hlt⟩ := h
    have hlater := hs.later y (hs.mem List.mem_cons_self)
    change (m.node y).key = twangMix64 addr ∧ (m.node y).lotid = lot at hy
    have hsel : waitsAt m₀ lot addr wakeMask y = meets wakeMask (m.node y).data := by
      rw [waitsAt, ← hlater.key, ← hlater.lotid, ← hlater.data, decide_eq_true hy, Bool.true_and]
    refine ⟨_, rfl, ?_⟩
    rw [ParkingLot.visit, futexWake_func]
    have hcount : (seen ++ [(m.node y).data]).countP (meets wakeMask) =
        (visited.filter (waitsAt m₀ lot addr wakeMask)).length + if meets wakeMask (m.node y).data then 1 else 0 := by
      rw [List.countP_append, List.countP_singleton, hseen]
    cases hm : meets wakeMask (m.node y).data with
    | false =>
      rw [hm] at hsel hcount
      obtain ⟨hspan, hlen⟩ := hs.pass hsel
      exact ⟨rfl, _, hspan.of_eq rfl rfl rfl, hcount.trans hlen.symm, hlen ▸ hlt⟩
    | true =>
      rw [hm] at hsel hcount
      rw [if_pos rfl] at hcount ⊢
      rw [hseen]
      by_cases hmore : (visited.filter (waitsAt m₀ lot addr wakeMask)).length + 1 < count
      · rw [if_pos hmore]
        exact ⟨rfl, hsel, visited, hs.of_eq rfl rfl rfl, hcount, hmore.le,
          ⟨fun hlast => absurd hlast Bool.false_ne_true, fun heq => absurd heq hmore.ne⟩⟩
      · rw [if_neg hmore]
        have heq : (visited.filter (waitsAt m₀ lot addr wakeMask)).length + 1 = count := by omega
        exact ⟨rfl, hsel, visited, hs.of_eq rfl rfl rfl, hcount, heq.le, ⟨fun _ => heq, fun _ => rfl⟩⟩
  | pass u seen y rest hy =>
    obtain ⟨rfl, visited, hs, hseen, hlt⟩ := h
    have hlater := hs.later y (hs.mem List.mem_cons_self)
    change ¬ ((m.node y).key = twangMix64 addr ∧ (m.node y).lotid = lot) at hy
    have hsel : waitsAt m₀ lot addr wakeMask y = false := by
      rw [waitsAt, ← hlater.key, ← hlater.lotid, decide_eq_false hy, Bool.false_and]
    obtain ⟨hspan, hlen⟩ := hs.pass hsel
    exact ⟨_, rfl, rfl, _, hspan.of_eq rfl rfl rfl, hseen.trans hlen.symm, hlen ▸ hlt⟩
  | wake u y last seen rest =>
    obtain ⟨rfl, hy, visited, hs, hrest⟩ := h
    refine ⟨_, rfl, rfl, hy, visited, ⟨hs.all, hs.list, hs.next, fun z hz => ?_, fun z hz => ?_⟩, hrest⟩
    · exact (hs.later z hz).trans (onNode_later (m := m.touch y) (g := fun d => { d with signaled := true })
        fun d => ⟨rfl, rfl, rfl, rfl, fun _ => rfl⟩)
    · rw [onNode_node, List.mem_cons]
      split
      next heq => exact ⟨fun _ => .inl heq, fun _ => rfl⟩
      next hne => rw [touch_node, hs.signaled z hz, or_iff_right hne]
  | erase u y last seen rest =>
    obtain ⟨rfl, hy, visited, hs, hcount, hle, hlast⟩ := h
    obtain ⟨hspan, hlen⟩ := hs.erase hy
    exact ⟨_, rfl, rfl, _, hspan, hcount.trans hlen.symm, hlen ▸ hle, hlen ▸ hlast⟩
  | proceed u seen rest =>
    obtain ⟨rfl, visited, hs, hcount, hle, hlast⟩ := h
    have hne : (visited.filter (waitsAt m₀ lot addr wakeMask)).length ≠ count := fun heq =>
      Bool.false_ne_true (hlast.mpr heq)
    exact ⟨_, rfl, rfl, visited, hs.of_eq fetchSub_list rfl rfl, hcount, lt_of_le_of_ne hle hne⟩
  | finish u seen rest =>
    obtain ⟨rfl, visited, hs, -, -, hlast⟩ := h
    exact ⟨_, rfl, rfl, visited, rest, hs.of_eq fetchSub_list rfl rfl, .inr (hlast.mp rfl)⟩
  | unparkUnlock u =>
    obtain ⟨rfl, -⟩ := h
    exact absurd rfl (hf _ rfl)
  | _ => exact h.elim

theorem Acts.of_erasing {y : ℕ} (h : Acts client m f m' fs) (hg : g ∈ fs) (hy : erasing g = some y) :
    ∃ u last seen rest, f = .unparkWake u y last seen rest := by
  cases h with
  | wake u n last seen rest =>
    cases List.mem_singleton.mp hg
    cases hy
    exact ⟨u, last, seen, rest, rfl⟩
  | client k z w nx hn => cases nx <;> simp [Next.frames] at hg <;> rw [hg] at hy <;> cases hy
  | visit u seen n rest hn =>
    rw [List.mem_singleton.mp hg, ParkingLot.visit] at hy
    split at hy
    all_goals cases hy
  | _ =>
    cases List.mem_singleton.mp hg
    cases hy

/-- While one thread is about to wake, the others leave the list of the queue and the signals of its nodes alone. -/
theorem Span.beside (h : Span m₀ c.mem q sel visited rest marked) (hsound : Sound c) (hs : Step (code client) c f x c')
    (hlock : lockOf f ≠ some q) (hold : ∀ y ∈ (m₀.queue q).list, y < m₀.nextNode ∧ getQueue (m₀.node y).key = q) :
    Span m₀ c'.mem q sel visited rest marked := by
  have hk := hsound.knows f hs.mem_frame
  obtain ⟨fs, he⟩ := hs.runs_code
  have ha := acts_of_code he
  have hnext : c.mem.nextNode ≤ c'.mem.nextNode ∧ (c'.mem.queue q).list = (c.mem.queue q).list := by
    cases ha.lists hk with
    | same hlist _ hnext => exact ⟨hnext.ge, hlist q⟩
    | insert p hf hm _ =>
      refine ⟨by rw [hm]; exact Nat.le_succ _, ?_⟩
      rw [hm, insertHead_list, if_neg]
      rintro rfl
      exact hlock (by rw [hf]; rfl)
    | erase q' n hq' _ _ hlist _ hnext =>
      refine ⟨hnext.ge, ?_⟩
      rw [hlist, if_neg]
      rintro rfl
      exact hlock hq'
  have hlater : ∀ y ∈ (m₀.queue q).list, (c.mem.node y).Later (c'.mem.node y) := fun y hy =>
    ha.later ((hold y hy).1.trans_le h.next)
  refine ⟨h.all, hnext.2.trans h.list, h.next.trans hnext.1, fun y hy => (h.later y hy).trans (hlater y hy),
    fun y hy => ?_⟩
  rw [← h.signaled y hy]
  refine ⟨fun hsig => ?_, (hlater y hy).signaled⟩
  by_contra hno
  obtain ⟨-, g, hg, her⟩ := ha.signals ((hold y hy).1.trans_le h.next) fun heq => hno (heq ▸ hsig)
  -- whoever signals the node holds the mutex of its queue
  obtain ⟨u, last, seen, rest', rfl⟩ := ha.of_erasing hg her
  have hqueue := (hsound.listed _ y (mem_of_ahead hk.1)).2.1
  rw [(h.later y hy).key, (hold y hy).2] at hqueue
  exact hlock (congrArg some hqueue.symm)

/-- From one action to the next, until the mutex is released. -/
theorem Waking.step {m₁ : Shared W} (hm₁ : ∀ y ∈ (m₁.queue q).list, y < m₁.nextNode ∧ getQueue (m₁.node y).key = q)
    (hq : (futexWake lot addr count wakeMask ret).queue = q) (hsound : Sound c)
    (hg : keepsLock q c f) (hs : Step (code client) c f x c')
    (h : ∃ g ∈ c.frames, Waking m₁ (futexWake lot addr count wakeMask ret) (waitsAt m₁ lot addr wakeMask) count wakeMask
      c.mem g) :
    ∃ g ∈ c'.frames, Waking m₁ (futexWake lot addr count wakeMask ret) (waitsAt m₁ lot addr wakeMask) count wakeMask
      c'.mem g := by
  subst hq
  obtain ⟨g, hgc, hw⟩ := h
  obtain ⟨fs, he⟩ := hs.runs_code
  by_cases hgf : g = f
  · subst hgf
    obtain ⟨g', rfl, hw'⟩ := hw.acts (acts_of_code he) fun u hu => by
      rw [hu] at hg
      exact hg
    exact ⟨g', hs.mem_of_new he List.mem_cons_self, hw'⟩
  · have hlock : ParkingLot.lockOf f ≠ some (futexWake lot addr count wakeMask ret).queue := fun hf =>
      (hsound.apart (hs.beside hgc hgf)).1 _ hf hw.lockOf
    exact ⟨g, hs.mem_of_ne hgc hgf, hw.imp fun _ _ _ hspan => hspan.beside hsound hs hlock hm₁⟩

end Wake

section Results
variable {client : Client W C X} {c c₁ c₂ c₃ : Config (Shared W) (Frame W C)} {f : Frame W C} {x : Bool × X}
  {lot count : ℕ} {addr : BitVec 64} {wakeMask : BitVec 32} {ret : C} {q : BitVec 64} {w : W}
  {threads : List (List (Frame W C))}

/-- While the mutex of a queue is free, no listed node is signaled. -/
theorem Sound.unsignaled (hsound : Sound c) (hq : (c.mem.queue q).mtx = false) {y : ℕ} (hy : y ∈ (c.mem.queue q).list) :
    (c.mem.node y).signaled = false := by
  by_contra hsig
  rw [Bool.not_eq_false] at hsig
  obtain ⟨f, hf, ht⟩ := hsound.tended q y hy
  rw [Tends, if_pos hsig] at ht
  obtain ⟨u, last, seen, rest, rfl⟩ : ∃ u last seen rest, f = .unparkErase u y last seen rest := by
    cases f <;> cases ht
    exact ⟨_, _, _, _, rfl⟩
  have hu := (hsound.listed _ y (mem_of_ahead (hsound.knows _ hf).1)).2.1
  have hlock : lockOf (.unparkErase u y last seen rest : Frame W C) = some q :=
    congrArg some (hu.symm.trans (hsound.listed q y hy).2.1)
  have hle := le_total (holds q) hf
  rw [hsound.locked q, hq, holds, if_pos hlock] at hle
  exact absurd hle (by decide)

/-- Of two frames that hold the mutex of one queue. -/
theorem Sound.eq_of_lock (hsound : Sound c) {g : Frame W C} (hf : f ∈ c.frames) (hg : g ∈ c.frames)
    (hlock : lockOf f = some q) (hlock' : lockOf g = some q) : g = f := by
  by_contra hne
  obtain ⟨before, after, heq⟩ := List.append_of_mem hf
  have hmem : g ∈ before ++ after := by
    rw [heq, List.mem_append, List.mem_cons] at hg
    rw [List.mem_append]
    tauto
  have hb : Beside c f g := ⟨before ++ after, heq ▸ List.perm_middle, hmem⟩
  exact (hsound.apart hb).1 q hlock hlock'

/-- With the mutex held by the end of an `unpark`, the counter counts the nodes and the waits in flight. -/
theorem Sound.count_inFlight (hsound : Sound c) {u : Unpark C} (hu : .unparkUnlock u ∈ c.frames) :
    (c.mem.queue u.queue).count = (c.mem.queue u.queue).list.length + c.total (inFlight u.queue) := by
  have hother : ∀ g ∈ c.frames, lockOf g = some u.queue → g = .unparkUnlock u := fun g hg hlock =>
    hsound.eq_of_lock hu hg rfl hlock
  have heq : ∀ g ∈ c.frames, counted u.queue g = inFlight u.queue g := fun g hg => by
    rw [counted]
    cases g with
    | parkLock p | parkUncount p => simp only [countOf, inFlight, Option.some.injEq]
    | parkCheck p | parkSkip p | timeoutUncount p | unparkUncount u' last seen rest =>
      refine if_neg fun hcount => ?_
      cases hother _ hg hcount
    | _ => rfl
  rw [hsound.count]
  congr 1
  exact congrArg List.sum (List.map_congr_left heq)

/-- The wake has taken the mutex. -/
theorem waking_of_lock (hsound : Sound c₁) (hcount : 1 ≤ count)
    (hs : Step (code client) c₁ (.unparkLock (futexWake lot addr count wakeMask ret)) x c₂) :
    (c₁.mem.queue (futexWake lot addr count wakeMask ret).queue).mtx = false ∧
    c₂.mem = c₁.mem.lock (futexWake lot addr count wakeMask ret).queue ∧
    ∃ g ∈ c₂.frames, Waking c₂.mem (futexWake lot addr count wakeMask ret) (waitsAt c₂.mem lot addr wakeMask) count
      wakeMask c₂.mem g := by
  obtain ⟨fs, he⟩ := hs.runs_code
  obtain ⟨hfree, hmem, rfl⟩ : (c₁.mem.queue (futexWake lot addr count wakeMask ret).queue).mtx = false ∧
      c₂.mem = c₁.mem.lock (futexWake lot addr count wakeMask ret).queue ∧
      fs = [.unparkScan _ [] (c₁.mem.queue (futexWake lot addr count wakeMask ret).queue).list] := by
    have ha := acts_of_code he
    generalize c₂.mem = m at ha
    cases ha with
    | unparkLock u hq => exact ⟨hq, rfl, rfl⟩
  have hlist : (c₂.mem.queue (futexWake lot addr count wakeMask ret).queue).list =
      (c₁.mem.queue (futexWake lot addr count wakeMask ret).queue).list := by rw [hmem, lock_list]
  have hnode : c₂.mem.node = c₁.mem.node := by rw [hmem]; rfl
  refine ⟨hfree, hmem, _, hs.mem_of_new he List.mem_cons_self, rfl, [], ?_, rfl, hcount⟩
  refine ⟨hlist, hlist, le_rfl, fun y _ => .refl _, fun y hy => ?_⟩
  rw [hnode, hsound.unsignaled hfree (hlist ▸ hy)]
  exact ⟨fun hfalse => absurd hfalse Bool.false_ne_true, fun hmem => absurd hmem List.not_mem_nil⟩

/-- It goes on until the mutex is released. -/
theorem waking_reaches (hsound : Sound c₁)
    (hs : Step (code client) c₁ (.unparkLock (futexWake lot addr count wakeMask ret)) x c₂)
    (hmem : c₂.mem = c₁.mem.lock (futexWake lot addr count wakeMask ret).queue)
    (hstart : ∃ g ∈ c₂.frames, Waking c₂.mem (futexWake lot addr count wakeMask ret) (waitsAt c₂.mem lot addr wakeMask)
      count wakeMask c₂.mem g)
    (hr : Reaches (code client) (keepsLock (futexWake lot addr count wakeMask ret).queue) c₂ c₃) :
    Sound c₃ ∧ ∃ g ∈ c₃.frames, Waking c₂.mem (futexWake lot addr count wakeMask ret) (waitsAt c₂.mem lot addr wakeMask)
      count wakeMask c₃.mem g := by
  induction hr with
  | refl => exact ⟨hsound.step hs, hstart⟩
  | step _ hg hs' ih =>
    refine ⟨ih.1.step hs', Waking.step (fun y hy => ?_) rfl ih.1 hg hs' ih.2⟩
    rw [hmem, lock_list] at hy
    rw [hmem]
    exact ⟨(hsound.listed _ y hy).1, (hsound.listed _ y hy).2.1⟩

/-- The selected nodes that have been visited are the first ones. -/
theorem Span.take_filter {m₀ m : Shared W} {sel : ℕ → Bool} {visited rest marked : List ℕ}
    (h : Span m₀ m q sel visited rest marked)
    (hdone : rest = [] ∧ (visited.filter sel).length ≤ count ∨ (visited.filter sel).length = count) :
    ((m₀.queue q).list.filter sel).take count = visited.filter sel := by
  rw [h.all, List.filter_append]
  rcases hdone with ⟨rfl, hle⟩ | hlen
  · rw [List.filter_nil, List.append_nil, List.take_of_length_le hle]
  · exact List.take_left' hlen

theorem Span.removed {m₀ m : Shared W} {sel : ℕ → Bool} {visited rest marked : List ℕ}
    (h : Span m₀ m q sel visited rest marked) (hnodup : (m₀.queue q).list.Nodup) :
    (m.queue q).list = (m₀.queue q).list.filter (· ∉ visited.filter sel) := by
  rw [h.all] at hnodup
  rw [h.list, h.all, List.filter_append]
  congr 1
  · refine List.filter_congr fun y hy => ?_
    cases hy' : sel y <;> simp [hy, hy']
  · refine (List.filter_eq_self.mpr fun y hy => ?_).symm
    have hout : y ∉ visited := fun hv => (List.nodup_append.mp hnodup).2.2 y hv y hy rfl
    simp [hout]

/-- In every run, a wake that finds the counter at zero has nobody to release; and from the time it has taken the mutex
to the time it is about to release it, a wake signals and removes the first waiters, as many as it may, and leaves
the others as they were. -/
theorem futexWake_spec (hi : ∀ k ∈ threads, ∀ f ∈ k, Idle f) (h : Reaches (code client) free ⟨start w, threads⟩ c₁)
    (hcount : 1 ≤ count) (hq : q = (futexWake lot addr count wakeMask ret).queue) :
    ((c₁.mem.queue q).count = 0 → (c₁.mem.queue q).list = []) ∧
    ∀ x c₂ c₃, Step (code client) c₁ (.unparkLock (futexWake lot addr count wakeMask ret)) x c₂ →
      Reaches (code client) (keepsLock q) c₂ c₃ →
      .unparkUnlock (futexWake lot addr count wakeMask ret) ∈ c₃.frames →
      ∃ waiters released, waiters = (c₁.mem.queue q).list.filter (waitsAt c₁.mem lot addr wakeMask) ∧
        released = waiters.take count ∧ released.length = min count waiters.length ∧
        (waiters.length ≤ count → released = waiters) ∧
        (∀ y ∈ (c₁.mem.queue q).list, (c₁.mem.node y).signaled = false ∧
          ((c₃.mem.node y).signaled = true ↔ y ∈ released)) ∧
        (c₃.mem.queue q).list = (c₁.mem.queue q).list.filter (· ∉ released) ∧
        (c₃.mem.queue q).count = (c₃.mem.queue q).list.length + c₃.total (inFlight q) := by
  subst hq
  have hsound := sound_of_reaches hi h
  refine ⟨fun h0 => ?_, fun x c₂ c₃ hs hr hend => ?_⟩
  · have hle := hsound.count (futexWake lot addr count wakeMask ret).queue
    exact List.length_eq_zero_iff.mp (by omega)
  obtain ⟨hfree, hmem, hstart⟩ := waking_of_lock hsound hcount hs
  obtain ⟨hsound₃, g, hg, hw⟩ := waking_reaches hsound hs hmem hstart hr
  obtain rfl := hsound₃.eq_of_lock hend hg rfl hw.lockOf
  obtain ⟨-, visited, rest, hspan, hdone⟩ := hw
  have hlist : (c₂.mem.queue (futexWake lot addr count wakeMask ret).queue).list =
      (c₁.mem.queue (futexWake lot addr count wakeMask ret).queue).list := by rw [hmem, lock_list]
  have hsel : waitsAt c₂.mem lot addr wakeMask = waitsAt c₁.mem lot addr wakeMask := by rw [hmem]; rfl
  rw [hsel] at hspan hdone
  have htake := hspan.take_filter hdone
  have hremoved := hspan.removed (hlist ▸ hsound.nodup _)
  rw [hlist] at htake hremoved
  refine ⟨_, _, rfl, rfl, List.length_take, List.take_of_length_le, fun y hy => ⟨hsound.unsignaled hfree hy, ?_⟩, ?_,
    hsound₃.count_inFlight hend⟩
  · rw [htake]
    exact hspan.signaled y (hlist ▸ hy)
  · rw [htake]
    exact hremoved

end Results

section Example
/-- Of the waiters that `somePark` makes one. -/
def someWake : Unpark Unit := futexWake 0 0 1 1 ()

/-- One thread waits, one is about to wake, and a third has just raised the counter. -/
def crowded : Option (Config (Shared Unit) (Frame Unit Unit)) :=
  runs (code once) free ⟨start (), [[.parkFor somePark], [.unpark someWake], [.parkFor somePark]]⟩
    ([0, 0, 0, 0, 2, 1].map fun t => (t, false, ()))

theorem exists_crowded : ∃ c₁ c₂ c₃, Reaches (code once) free
      ⟨start (), [[.parkFor somePark], [.unpark someWake], [.parkFor somePark]]⟩ c₁ ∧
    Step (code once) c₁ (.unparkLock someWake) (false, ()) c₂ ∧
    Reaches (code once) (keepsLock someWake.queue) c₂ c₃ ∧ .unparkUnlock someWake ∈ c₃.frames ∧
    (c₃.mem.queue someWake.queue).count = 1 ∧ (c₃.mem.queue someWake.queue).list = [] ∧
    (c₁.mem.queue someWake.queue).list = [0] := by
  have he : (crowded.bind fun c₁ => (code once c₁.mem (.unparkLock someWake) (false, ())).bind fun r =>
      (runs (code once) (keepsLock someWake.queue) ⟨r.1, c₁.threads.set 1 (r.2 ++ [])⟩
        ([1, 1, 1, 1].map fun t => (t, false, ()))).map fun c₃ => (c₁.threads[1]?, (c₁.mem.queue someWake.queue).list,
          c₃.threads[1]?, (c₃.mem.queue someWake.queue).count, (c₃.mem.queue someWake.queue).list)) =
      some (some [.unparkLock someWake], [0], some [.unparkUnlock someWake], 1, []) := rfl
  obtain ⟨c₁, hc₁, he⟩ := Option.bind_eq_some_iff.mp he
  obtain ⟨r, hr, he⟩ := Option.bind_eq_some_iff.mp he
  obtain ⟨c₃, hc₃, he⟩ := Option.map_eq_some_iff.mp he
  simp only [Prod.mk.injEq] at he
  obtain ⟨hthread, hlist, hend, hcount, hlist'⟩ := he
  refine ⟨c₁, _, c₃, reaches_of_runs hc₁, step_of_stack hthread hr, reaches_of_runs hc₃, ?_, hcount, hlist', hlist⟩
  exact List.mem_flatten.mpr ⟨_, List.mem_of_getElem? hend, List.mem_singleton.mpr rfl⟩

/-- The counter still counts the third thread. -/
theorem counter_above_list : ¬ ∀ c₁ x c₂ c₃, Reaches (code once) free
      ⟨start (), [[.parkFor somePark], [.unpark someWake], [.parkFor somePark]]⟩ c₁ →
    Step (code once) c₁ (.unparkLock someWake) x c₂ → Reaches (code once) (keepsLock someWake.queue) c₂ c₃ →
    .unparkUnlock someWake ∈ c₃.frames →
    (c₃.mem.queue someWake.queue).count = (c₃.mem.queue someWake.queue).list.length := by
  intro hall
  obtain ⟨c₁, c₂, c₃, h₁, hs, h₃, hend, hcount, hlist, -⟩ := exists_crowded
  have heq := hall c₁ _ c₂ c₃ h₁ hs h₃ hend
  rw [hcount, hlist] at heq
  cases heq

/-- The one waiter is released. -/
theorem futexWake_spec_crowded : ∃ c₁ c₃ : Config (Shared Unit) (Frame Unit Unit), Reaches (code once) free
      ⟨start (), [[.parkFor somePark], [.unpark someWake], [.parkFor somePark]]⟩ c₁ ∧
    (c₁.mem.queue someWake.queue).list = [0] ∧ (c₃.mem.queue someWake.queue).list = [] ∧
    (c₃.mem.queue someWake.queue).count = (c₃.mem.queue someWake.queue).list.length +
      c₃.total (inFlight someWake.queue) := by
  obtain ⟨c₁, c₂, c₃, h₁, hs, h₃, hend, -, hlist, hlist₁⟩ := exists_crowded
  obtain ⟨-, hspec⟩ := futexWake_spec (by simp [Idle]) h₁ (by decide : 1 ≤ 1) (rfl : someWake.queue = _)
  obtain ⟨-, -, -, -, -, -, -, -, hcount⟩ := hspec _ c₂ c₃ hs h₃ hend
  exact ⟨c₁, c₃, h₁, hlist₁, hlist, hcount⟩

end Example
end Zpc.ParkingLot
