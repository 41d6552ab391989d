import Zpc.ParkingLotActs

/-!
# What holds in every run of the parking lot

Each queue's mutex is held by the frame that may change the queue, the counter is never
below the number of nodes listed, and a listed node has a thread to which it belongs: the
one that waits on it while it is not signaled, then the one that is about to erase it.
-/
namespace Zpc.ParkingLot
open Interleaving

variable {W C X : Type*} {client : Client W C X} {c c' : Config (Shared W) (Frame W C)} {m m' : Shared W}
  {f : Frame W C} {fs : List (Frame W C)} {x : Bool × X}

/-- Node `n` stands for the call `p`, and is listed until it is signaled. -/
structure Parked (m : Shared W) (p : Park W C) (n : ℕ) : Prop where
  lt : n < m.nextNode
  key : (m.node n).key = p.key
  lotid : (m.node n).lotid = p.lotid
  data : (m.node n).data = p.data
  call : (m.node n).call = p.call
  listed : (m.node n).signaled = false → n ∈ (m.queue p.queue).list

def Unpark.Matches (u : Unpark C) (d : WaitNode) : Prop := d.key = u.key ∧ d.lotid = u.lotid

/-- `func` has such a node removed whatever came before. -/
def Unpark.Takes (u : Unpark C) (data : BitVec 32) : Prop :=
  ∀ seen, u.func seen data = .removeContinue ∨ u.func seen data = .removeBreak

/-- The nodes still to visit are the end of the list, and before them are only nodes to be kept. -/
def Ahead (m : Shared W) (u : Unpark C) (rest : List ℕ) : Prop :=
  ∃ kept, (m.queue u.queue).list = kept ++ rest ∧ ∀ n ∈ kept, u.Matches (m.node n) → ¬ u.Takes (m.node n).data

/-- What a frame knows of the memory. -/
def Knows (m : Shared W) : Frame W C → Prop
  | .parkUnlock p n | .waitLock p n | .waitTest p n _ | .waiting p n | .timeoutLock p n | .timeoutCheck p n => Parked m p n
  | .waitUnlock p n timeout => Parked m p n ∧ (timeout = false → (m.node n).signaled = true)
  | .unparkScan u _ rest | .unparkUncount u false _ rest => Ahead m u rest
  | .unparkWake u n _ _ rest => Ahead m u (n :: rest) ∧ u.Matches (m.node n)
  | .unparkErase u n _ _ rest => Ahead m u (n :: rest) ∧ u.Matches (m.node n) ∧ (m.node n).signaled = true
  | _ => True

/-- Who a listed node belongs to. -/
def Tends (m : Shared W) (n : ℕ) (f : Frame W C) : Prop :=
  if (m.node n).signaled then erasing f = some n else nodeOf f = some n

structure Sound (c : Config (Shared W) (Frame W C)) : Prop where
  locked : ∀ q, c.total (holds q) = (c.mem.queue q).mtx.toNat
  count : ∀ q, (c.mem.queue q).count = (c.mem.queue q).list.length + c.total (counted q)
  used : ∀ n, c.total (uses n) ≤ 1 ∧ (c.mem.nextNode ≤ n → c.total (uses n) = 0)
  listed : ∀ q, ∀ n ∈ (c.mem.queue q).list, n < c.mem.nextNode ∧ getQueue (c.mem.node n).key = q ∧ (c.mem.node n).erased = 0
  nodup : ∀ q, (c.mem.queue q).list.Nodup
  unlisted : ∀ n < c.mem.nextNode, n ∉ (c.mem.queue (getQueue (c.mem.node n).key)).list → (c.mem.node n).erased = 1
  tended : ∀ q, ∀ n ∈ (c.mem.queue q).list, ∃ f ∈ c.frames, Tends c.mem n f
  knows : ∀ f ∈ c.frames, Knows c.mem f

section Steps
variable {q : BitVec 64} {n : ℕ}

theorem locked_step (h : Step (code client) c f x c') (hl : c.total (holds q) = (c.mem.queue q).mtx.toNat) :
    c'.total (holds q) = (c'.mem.queue q).mtx.toNat := by
  obtain ⟨fs, r, ha, hr, hr'⟩ := h.measure acts_of_code (holds q)
  rw [hr] at hl
  rw [hr']
  generalize c.mem = m, c'.mem = m' at ha hl ⊢
  clear h hr hr'
  cases ha with
  | client k x w nx hk =>
    rw [sum_next (holds_idle q)]
    exact hl
  | parkLock p hq | timeoutLock p n hq | unparkLock p hq =>
    rcases eq_or_ne p.queue q with rfl | hne
    · rw [hq] at hl
      simp [holds, lockOf] at hl ⊢
      exact hl
    · simp [holds, lockOf, hne, hne.symm] at hl ⊢
      exact hl
  | parkSkip p | parkUnlock p n | timeoutUnlock p r | unparkUnlock p =>
    rcases eq_or_ne p.queue q with rfl | hne
    · have hle := Bool.toNat_le (m.queue p.queue).mtx
      simp [holds, lockOf] at hl ⊢
      omega
    · simp [holds, lockOf, hne, hne.symm] at hl ⊢
      exact hl
  | visit u seen n rest hn =>
    rw [List.map_singleton, List.sum_singleton, holds, lockOf_visit]
    exact hl
  | _ =>
    simp [holds, lockOf] at hl ⊢
    exact hl

theorem mem_of_ahead {u : Unpark C} {m : Shared W} {rest : List ℕ} (h : Ahead m u (n :: rest)) :
    n ∈ (m.queue u.queue).list := by
  obtain ⟨kept, hk, -⟩ := h
  rw [hk]
  exact List.mem_append_right _ List.mem_cons_self

theorem count_step (h : Step (code client) c f x c') (hknows : Knows c.mem f)
    (hc : (c.mem.queue q).count = (c.mem.queue q).list.length + c.total (counted q)) :
    (c'.mem.queue q).count = (c'.mem.queue q).list.length + c'.total (counted q) := by
  obtain ⟨fs, r, ha, hr, hr'⟩ := h.measure acts_of_code (counted q)
  rw [hr] at hc
  rw [hr']
  generalize c.mem = m, c'.mem = m' at ha hc hknows ⊢
  clear h hr hr'
  cases ha with
  | client k x w nx hk =>
    rw [sum_next (counted_idle q)]
    exact hc
  | visit u seen n rest hn =>
    rw [List.map_singleton, List.sum_singleton, counted, countOf_visit]
    exact hc
  | parkFor p | parkUncount p | timeoutUncount p | proceed p seen rest | finish p seen rest =>
    rcases eq_or_ne p.queue q with rfl | hne
    · simp [counted, countOf] at hc ⊢
      omega
    · simp [counted, countOf, hne, hne.symm] at hc ⊢
      exact hc
  | insert p hp =>
    rcases eq_or_ne p.queue q with rfl | hne
    · simp [counted, countOf] at hc ⊢
      omega
    · simp [counted, countOf, hne, hne.symm] at hc ⊢
      exact hc
  | withdraw p n hs =>
    -- the node is in the list, as it has not been signaled
    have hn : n ∈ (m.queue p.queue).list := (show Parked m p n from hknows).listed hs
    rcases eq_or_ne p.queue q with rfl | hne
    · have hlen := List.length_erase_add_one hn
      simp [counted, countOf] at hc ⊢
      omega
    · simp [counted, countOf, hne, hne.symm] at hc ⊢
      exact hc
  | erase u n last seen rest =>
    have hn : n ∈ (m.queue u.queue).list := mem_of_ahead hknows.1
    rcases eq_or_ne u.queue q with rfl | hne
    · have hlen := List.length_erase_add_one hn
      simp [counted, countOf] at hc ⊢
      omega
    · simp [counted, countOf, hne, hne.symm] at hc ⊢
      exact hc
  | _ =>
    simp [counted, countOf] at hc ⊢
    exact hc

theorem used_step (h : Step (code client) c f x c') (n : ℕ)
    (hu : c.total (uses n) ≤ 1 ∧ (c.mem.nextNode ≤ n → c.total (uses n) = 0)) :
    c'.total (uses n) ≤ 1 ∧ (c'.mem.nextNode ≤ n → c'.total (uses n) = 0) := by
  obtain ⟨fs, r, ha, hr, hr'⟩ := h.measure acts_of_code (uses n)
  rw [hr] at hu
  rw [hr']
  generalize c.mem = m, c'.mem = m' at ha hu ⊢
  clear h hr hr'
  cases ha with
  | client k x w nx hk =>
    rw [sum_next (uses_idle n)]
    exact hu
  | visit u seen n rest hn =>
    rw [List.map_singleton, List.sum_singleton, uses, nodeOf_visit]
    exact hu
  | insert p hp =>
    rcases eq_or_ne n m.nextNode with rfl | hne
    · simp [uses, nodeOf] at hu ⊢
      omega
    · simp [uses, nodeOf, hne.symm] at hu ⊢
      omega
  | _ =>
    simp [uses, nodeOf] at hu ⊢
    omega

end Steps

section Changes
/-- What never changes of a node once it is made; a signal is never taken back. -/
structure WaitNode.Later (d d' : WaitNode) : Prop where
  key : d'.key = d.key
  lotid : d'.lotid = d.lotid
  data : d'.data = d.data
  call : d'.call = d.call
  signaled : d.signaled = true → d'.signaled = true

theorem WaitNode.Later.refl (d : WaitNode) : d.Later d := ⟨rfl, rfl, rfl, rfl, id⟩

theorem onNode_later {m : Shared W} {n n' : ℕ} {g : WaitNode → WaitNode} (hg : ∀ d : WaitNode, d.Later (g d)) :
    (m.node n').Later ((m.onNode n g).node n') := by
  rw [onNode_node]
  split
  · exact hg _
  · exact .refl _

theorem erase_later {m : Shared W} {q : BitVec 64} {n n' : ℕ} : (m.node n').Later ((m.erase q n).node n') := by
  by_cases h : n ∈ (m.queue q).list
  · rw [erase_node h]
    split <;> exact ⟨rfl, rfl, rfl, rfl, id⟩
  · rw [Shared.erase, if_neg h]
    exact .refl _

theorem Acts.later {n : ℕ} (h : Acts client m f m' fs) (hn : n < m.nextNode) : (m.node n).Later (m'.node n) := by
  cases h with
  | insert p hp =>
    rw [insertHead_old p hn]
    exact .refl _
  | withdraw p n hs => exact erase_later (m := m.touch n)
  | erase u n last seen rest => exact erase_later
  | waitLock p n | sleep p n hs | waiting p n timeout ht | woken p n | timedOut p n =>
    exact onNode_later (m := m.touch n) fun d => ⟨rfl, rfl, rfl, rfl, id⟩
  | wake u n last seen rest => exact onNode_later (m := m.touch n) fun d => ⟨rfl, rfl, rfl, rfl, fun _ => rfl⟩
  | _ => exact .refl _

/-- How an action changes the lists. -/
inductive Lists (m : Shared W) (f : Frame W C) (m' : Shared W) (fs : List (Frame W C)) : Prop
  | same (hlist : ∀ q, (m'.queue q).list = (m.queue q).list) (herased : ∀ n, (m'.node n).erased = (m.node n).erased)
      (hnext : m'.nextNode = m.nextNode)
  | insert (p : Park W C) (hf : f = .parkCheck p) (hm : m' = m.insertHead p)
      (hfs : fs = [.parkUnlock p m.nextNode])
  | erase (q : BitVec 64) (n : ℕ) (hq : lockOf f = some q) (hn : n ∈ (m.queue q).list)
      (hf : nodeOf f = some n ∧ (m.node n).signaled = false ∨ erasing f = some n)
      (hlist : ∀ q', (m'.queue q').list = if q' = q then (m.queue q').list.erase n else (m.queue q').list)
      (herased : ∀ n', (m'.node n').erased = if n' = n then (m.node n').erased + 1 else (m.node n').erased)
      (hnext : m'.nextNode = m.nextNode)

theorem onNode_erased {m : Shared W} {n n' : ℕ} {g : WaitNode → WaitNode} (hg : ∀ d : WaitNode, (g d).erased = d.erased) :
    ((m.onNode n g).node n').erased = (m.node n').erased := by
  rw [onNode_node]
  split
  · exact hg _
  · rfl

theorem erase_erased {m : Shared W} {q : BitVec 64} {n n' : ℕ} (h : n ∈ (m.queue q).list) :
    ((m.erase q n).node n').erased = if n' = n then (m.node n').erased + 1 else (m.node n').erased := by
  rw [erase_node h]
  split <;> rfl

theorem Acts.lists (h : Acts client m f m' fs) (hk : Knows m f) : Lists m f m' fs := by
  cases h with
  | insert p hp => exact .insert p rfl rfl rfl
  | withdraw p n hs =>
    have hn : n ∈ (m.queue p.queue).list := (show Parked m p n from hk).listed hs
    exact .erase p.queue n rfl hn (.inl ⟨rfl, hs⟩) (fun _ => erase_list) (fun _ => erase_erased (m := m.touch n) hn)
      erase_nextNode
  | erase u n last seen rest =>
    have hn : n ∈ (m.queue u.queue).list := mem_of_ahead hk.1
    exact .erase u.queue n rfl hn (.inr rfl) (fun _ => erase_list) (fun _ => erase_erased hn) erase_nextNode
  | waitLock p n | sleep p n hs | waiting p n timeout ht | woken p n | timedOut p n | wake u n last seen rest =>
    exact .same (fun _ => rfl) (fun _ => onNode_erased (m := m.touch n) fun _ => rfl) rfl
  | _ => exact .same (fun _ => by simp) (fun _ => rfl) rfl

theorem listed_step (h : Acts client m f m' fs) (hk : Knows m f)
    (hl : ∀ q, ∀ n ∈ (m.queue q).list, n < m.nextNode ∧ getQueue (m.node n).key = q ∧ (m.node n).erased = 0)
    (hd : ∀ q, (m.queue q).list.Nodup) (q : BitVec 64) :
    (∀ n ∈ (m'.queue q).list, n < m'.nextNode ∧ getQueue (m'.node n).key = q ∧ (m'.node n).erased = 0) ∧
      (m'.queue q).list.Nodup := by
  cases h.lists hk with
  | same hlist herased hnext =>
    rw [hlist]
    refine ⟨fun n hn => ?_, hd q⟩
    obtain ⟨hlt, hkey, he⟩ := hl q n hn
    rw [hnext, (h.later hlt).key, herased]
    exact ⟨hlt, hkey, he⟩
  | insert p hf hm _ =>
    have hnew : ∀ q, m.nextNode ∉ (m.queue q).list := fun q hn => absurd (hl q _ hn).1 (Nat.lt_irrefl _)
    have hold : ∀ n ∈ (m.queue q).list, n < m'.nextNode ∧ getQueue (m'.node n).key = q ∧ (m'.node n).erased = 0 := by
      intro n hn
      obtain ⟨hlt, hkey, he⟩ := hl q n hn
      rw [hm, insertHead_old p hlt]
      exact ⟨Nat.lt_succ_of_lt hlt, hkey, he⟩
    rw [hm, insertHead_list]
    split
    next hq =>
      refine ⟨fun n hn => ?_, List.nodup_cons.mpr ⟨hnew q, hd q⟩⟩
      rcases List.mem_cons.mp hn with rfl | hn
      · rw [insertHead_node, Function.update_self]
        exact ⟨Nat.lt_succ_self _, hq.symm, rfl⟩
      · rw [← hm]
        exact hold n hn
    next =>
      rw [← hm]
      exact ⟨hold, hd q⟩
  | erase q₀ n₀ hq hn₀ hf hlist herased hnext =>
    rw [hlist]
    have hne : ∀ n ∈ if q = q₀ then (m.queue q).list.erase n₀ else (m.queue q).list, n ∈ (m.queue q).list ∧ n ≠ n₀ := by
      intro n hn
      split at hn
      · exact ⟨List.mem_of_mem_erase hn, ((hd q).mem_erase_iff.mp hn).1⟩
      next hq' =>
        refine ⟨hn, fun he => hq' ?_⟩
        rw [← (hl q n hn).2.1, he, (hl q₀ n₀ hn₀).2.1]
    refine ⟨fun n hn => ?_, ?_⟩
    · obtain ⟨hin, hn₀⟩ := hne n hn
      obtain ⟨hlt, hkey, he⟩ := hl q n hin
      rw [hnext, (h.later hlt).key, herased, if_neg hn₀]
      exact ⟨hlt, hkey, he⟩
    · split
      · exact (hd q).erase _
      · exact hd q

theorem unlisted_step (h : Acts client m f m' fs) (hk : Knows m f)
    (hl : ∀ q, ∀ n ∈ (m.queue q).list, n < m.nextNode ∧ getQueue (m.node n).key = q ∧ (m.node n).erased = 0)
    (hu : ∀ n < m.nextNode, n ∉ (m.queue (getQueue (m.node n).key)).list → (m.node n).erased = 1) (n : ℕ)
    (hn : n < m'.nextNode) (hno : n ∉ (m'.queue (getQueue (m'.node n).key)).list) : (m'.node n).erased = 1 := by
  cases h.lists hk with
  | same hlist herased hnext =>
    rw [hnext] at hn
    rw [hlist, (h.later hn).key] at hno
    rw [herased]
    exact hu n hn hno
  | insert p hf hm _ =>
    rw [hm] at hno hn ⊢
    rcases Nat.lt_or_eq_of_le (Nat.le_of_lt_succ hn) with hlt | rfl
    · rw [insertHead_old p hlt] at hno ⊢
      rw [insertHead_list] at hno
      refine hu n hlt fun hin => hno ?_
      split
      · exact List.mem_cons_of_mem _ hin
      · exact hin
    · rw [insertHead_node, Function.update_self, insertHead_list] at hno
      exact absurd List.mem_cons_self (if_pos (show getQueue p.key = p.queue from rfl) ▸ hno)
  | erase q₀ n₀ hq hn₀ hf hlist herased hnext =>
    rw [hnext] at hn
    rw [hlist, (h.later hn).key] at hno
    rw [herased]
    split
    next he => rw [he, (hl q₀ n₀ hn₀).2.2]
    next hne =>
      refine hu n hn fun hin => hno ?_
      split
      · exact (List.mem_erase_of_ne hne).mpr hin
      · exact hin

/-- A signal is given by the frame that then erases the node. -/
theorem Acts.signals {n : ℕ} (h : Acts client m f m' fs) (hn : n < m.nextNode)
    (hs : (m'.node n).signaled ≠ (m.node n).signaled) : (m'.node n).signaled = true ∧ ∃ g ∈ fs, erasing g = some n := by
  have hkeep : ∀ {m : Shared W} {k : ℕ} {g : WaitNode → WaitNode}, (∀ d, (g d).signaled = d.signaled) →
      ((m.onNode k g).node n).signaled = (m.node n).signaled := by
    intro m k g hg
    rw [onNode_node]
    split
    · exact hg _
    · rfl
  have herase : ∀ (m : Shared W) (q : BitVec 64) (k : ℕ), ((m.erase q k).node n).signaled = (m.node n).signaled := by
    intro m q k
    by_cases hk : k ∈ (m.queue q).list
    · rw [erase_node hk]
      split <;> rfl
    · rw [Shared.erase, if_neg hk]
  cases h with
  | insert p hp => exact absurd (congrArg WaitNode.signaled (insertHead_old p hn)) hs
  | withdraw p k hk => exact absurd (herase (m.touch k) _ _) hs
  | erase u k last seen rest => exact absurd (herase m _ _) hs
  | waitLock p k | sleep p k hk | waiting p k timeout ht | woken p k | timedOut p k =>
    refine absurd ?_ hs
    exact hkeep (m := m.touch k) fun _ => rfl
  | wake u k last seen rest =>
    rcases eq_or_ne n k with rfl | hne
    · refine ⟨?_, _, List.mem_singleton.mpr rfl, rfl⟩
      rw [onNode_node, if_pos rfl]
    · rw [onNode_node, if_neg hne] at hs
      exact absurd rfl hs
  | _ => exact absurd rfl hs

/-- The frame that tends a node hands it on, or takes it out of its list. -/
theorem Acts.tends {n : ℕ} (h : Acts client m f m' fs) (hk : Knows m f) (hn : n < m.nextNode) (ht : Tends m n f)
    (hd : ∀ q, (m.queue q).list.Nodup) (hin : n ∈ (m'.queue (getQueue (m.node n).key)).list) :
    ∃ g ∈ fs, Tends m' n g := by
  unfold Tends at ht
  split at ht
  next hs =>
    -- the node is signaled, and the frame is about to erase it
    obtain ⟨u, last, seen, rest, rfl⟩ : ∃ u last seen rest, f = .unparkErase u n last seen rest := by
      cases f <;> cases ht
      exact ⟨_, _, _, _, rfl⟩
    cases h
    rw [hk.2.1.1, erase_list, if_pos (show getQueue u.key = u.queue from rfl)] at hin
    exact absurd hin (hd _).not_mem_erase
  next hs =>
    rw [Bool.not_eq_true] at hs
    by_cases hs' : (m'.node n).signaled = true
    · obtain ⟨-, g, hg, he⟩ := h.signals hn (by rw [hs, hs']; exact Bool.noConfusion)
      exact ⟨g, hg, by rw [Tends, if_pos hs']; exact he⟩
    · have huser : ∀ g : Frame W C, nodeOf g = some n → Tends m' n g := fun g hg => by rw [Tends, if_neg hs']; exact hg
      cases h with
      | woken p k =>
        cases ht
        exact absurd (hk.2 rfl) (by rw [hs]; exact Bool.noConfusion)
      | tooLate p k hk' =>
        cases ht
        exact absurd hk' (by rw [hs]; exact Bool.noConfusion)
      | withdraw p k hk' =>
        cases ht
        rw [(show Parked m p n from hk).key, erase_list, if_pos (show getQueue p.key = p.queue from rfl)] at hin
        exact absurd hin (hd _).not_mem_erase
      | _ =>
        cases ht
        all_goals exact ⟨_, List.mem_singleton.mpr rfl, huser _ rfl⟩

theorem Parked.mono {p : Park W C} {n : ℕ} (h : Parked m p n) (hl : (m.node n).Later (m'.node n))
    (hnext : m.nextNode ≤ m'.nextNode)
    (hin : n ∈ (m.queue p.queue).list → (m'.node n).signaled = false → n ∈ (m'.queue p.queue).list) : Parked m' p n := by
  refine ⟨lt_of_lt_of_le h.lt hnext, hl.key.trans h.key, hl.lotid.trans h.lotid, hl.data.trans h.data,
    hl.call.trans h.call, fun hs => hin (h.listed ?_) hs⟩
  by_contra hno
  rw [Bool.not_eq_false] at hno
  rw [hl.signaled hno] at hs
  cases hs

theorem Parked.of_eq {p : Park W C} {n : ℕ} (h : Parked m p n) (hl : (m.node n).Later (m'.node n))
    (hnext : m'.nextNode = m.nextNode) (hlist : ∀ q, (m'.queue q).list = (m.queue q).list) : Parked m' p n :=
  h.mono hl hnext.ge fun hin _ => by rw [hlist]; exact hin

theorem matches_later {u : Unpark C} {d d' : WaitNode} (h : d.Later d') : u.Matches d' ↔ u.Matches d := by
  rw [Unpark.Matches, Unpark.Matches, h.key, h.lotid]

theorem Ahead.mono {u : Unpark C} {rest : List ℕ} (h : Ahead m u rest)
    (hl : ∀ n ∈ (m.queue u.queue).list, (m.node n).Later (m'.node n))
    (hlist : (m'.queue u.queue).list = (m.queue u.queue).list) : Ahead m' u rest := by
  obtain ⟨kept, hk, hno⟩ := h
  refine ⟨kept, hlist.trans hk, fun n hn hm => ?_⟩
  have hnl := hl n (hk ▸ List.mem_append_left _ hn)
  rw [hnl.data]
  exact hno n hn ((matches_later hnl).mp hm)

theorem Ahead.pass {u : Unpark C} {n : ℕ} {rest : List ℕ} (h : Ahead m u (n :: rest))
    (hn : u.Matches (m.node n) → ¬ u.Takes (m.node n).data) : Ahead m u rest := by
  obtain ⟨kept, hk, hno⟩ := h
  refine ⟨kept ++ [n], by rw [hk, List.append_assoc, List.singleton_append], fun k hk => ?_⟩
  rcases List.mem_append.mp hk with hk | hk
  · exact hno k hk
  · rw [List.mem_singleton.mp hk]
    exact hn

theorem Ahead.erase {u : Unpark C} {n : ℕ} {rest : List ℕ} (h : Ahead m u (n :: rest))
    (hd : (m.queue u.queue).list.Nodup) : Ahead (m.erase u.queue n) u rest := by
  obtain ⟨kept, hk, hno⟩ := h
  have hn : n ∉ kept := by
    rw [hk, List.nodup_append] at hd
    exact fun hn => hd.2.2 n hn n List.mem_cons_self rfl
  refine ⟨kept, ?_, fun k hk' hm => ?_⟩
  · rw [erase_list, if_pos rfl, hk, List.erase_append_right _ hn, List.erase_cons_head]
  · have hkl : (m.node k).Later ((m.erase u.queue n).node k) := erase_later
    rw [hkl.data]
    exact hno k hk' ((matches_later hkl).mp hm)

/-- What the frame that comes next knows. -/
theorem Acts.knows (h : Acts client m f m' fs) (hk : Knows m f)
    (hl : ∀ q, ∀ n ∈ (m.queue q).list, n < m.nextNode ∧ getQueue (m.node n).key = q ∧ (m.node n).erased = 0)
    (hd : ∀ q, (m.queue q).list.Nodup) : ∀ g ∈ fs, Knows m' g := by
  have hlater : ∀ q, ∀ n ∈ (m.queue q).list, (m.node n).Later (m'.node n) := fun q n hn => h.later (hl q n hn).1
  cases h with
  | client k x w nx hk =>
    cases nx <;> simp [Next.frames, Knows]
  | insert p hp =>
    intro g hg
    rw [List.mem_singleton.mp hg]
    have hnode : (m.insertHead p).node m.nextNode = ⟨p.key, p.lotid, p.data, false, false, p.call, 0⟩ :=
      Function.update_self _ _ _
    refine ⟨Nat.lt_succ_self _, ?_, ?_, ?_, ?_, fun _ => ?_⟩
    · rw [hnode]
    · rw [hnode]
    · rw [hnode]
    · rw [hnode]
    · rw [insertHead_list, if_pos rfl]
      exact List.mem_cons_self
  | parkUnlock p n | timeoutLock p n hq =>
    intro g hg
    rw [List.mem_singleton.mp hg]
    exact Parked.of_eq hk (.refl _) rfl fun q => by simp
  | waitLock p n | sleep p n hs | waiting p n timeout ht =>
    intro g hg
    rw [List.mem_singleton.mp hg]
    exact Parked.of_eq hk (onNode_later (m := m.touch n) fun d => ⟨rfl, rfl, rfl, rfl, id⟩) rfl fun q => rfl
  | leave p n timeout hs =>
    intro g hg
    rw [List.mem_singleton.mp hg]
    refine ⟨Parked.of_eq hk (.refl _) rfl fun q => rfl, fun ht => ?_⟩
    exact hs.resolve_left fun h => by rw [ht] at h; cases h
  | timedOut p n =>
    intro g hg
    rw [List.mem_singleton.mp hg]
    exact Parked.of_eq hk.1 (onNode_later (m := m.touch n) fun d => ⟨rfl, rfl, rfl, rfl, id⟩) rfl fun q => rfl
  | unparkLock u hq =>
    intro g hg
    rw [List.mem_singleton.mp hg]
    exact ⟨[], lock_list, fun n hn => absurd hn List.not_mem_nil⟩
  | visit u seen n rest hn =>
    intro g hg
    rw [List.mem_singleton.mp hg]
    have hk' : Ahead (m.touch n) u (n :: rest) := Ahead.mono hk (fun k hk => hlater _ k hk) rfl
    unfold ParkingLot.visit
    split
    next hr =>
      refine hk'.pass fun _ ht => ?_
      rcases ht seen with h | h <;> rw [touch_node, hr] at h <;> cases h
    next => exact ⟨hk', hn⟩
    next => trivial
    next => exact ⟨hk', hn⟩
  | pass u seen n rest hn =>
    intro g hg
    rw [List.mem_singleton.mp hg]
    exact Ahead.pass (Ahead.mono hk (fun k hk => hlater _ k hk) rfl) fun hm => absurd hm hn
  | wake u n last seen rest =>
    intro g hg
    rw [List.mem_singleton.mp hg]
    refine ⟨Ahead.mono hk.1 (fun k hk => hlater _ k hk) rfl, (matches_later (hlater _ n (mem_of_ahead hk.1))).mpr hk.2, ?_⟩
    rw [onNode_node, if_pos rfl]
  | erase u n last seen rest =>
    intro g hg
    rw [List.mem_singleton.mp hg]
    cases last with
    | false => exact hk.1.erase (hd _)
    | true => trivial
  | proceed u seen rest =>
    intro g hg
    rw [List.mem_singleton.mp hg]
    exact Ahead.mono hk (fun k hk => hlater _ k hk) (by simp)
  | _ =>
    intro g hg
    rw [List.mem_singleton.mp hg]
    trivial

theorem parked_of_nodeOf {n : ℕ} (hk : Knows m f) (hn : nodeOf f = some n) : ∃ p, parkOf f = some p ∧ Parked m p n := by
  cases f <;> cases hn
  all_goals first | exact ⟨_, rfl, hk⟩ | exact ⟨_, rfl, hk.1⟩

/-- A thread that sleeps after an action of its own slept before, or has found its condition to hold. -/
theorem Acts.sleeper (h : Acts client m f m' fs) {g : Frame W C} (hg : g ∈ fs) {p : Park W C} {n : ℕ}
    (hp : parkOf g = some p) (hn : nodeOf g = some n) :
    parkOf f = some p ∧ nodeOf f = some n ∨ f = .parkCheck p ∧ p.condition m.words = true := by
  cases h with
  | client k x w nx hk =>
    cases nx <;> simp [Next.frames] at hg <;> rw [hg] at hn <;> cases hn
  | visit u seen n rest hk =>
    rw [List.mem_singleton.mp hg, nodeOf_visit] at hn
    cases hn
  | insert p' hc =>
    rw [List.mem_singleton.mp hg] at hp
    cases hp
    exact .inr ⟨rfl, hc⟩
  | _ =>
    rw [List.mem_singleton.mp hg] at hp hn
    cases hn
    all_goals exact .inl ⟨hp, rfl⟩

end Changes

section Runs
/-- Frames beside each other do not hold one mutex or wait on one node. -/
theorem Sound.apart (h : Sound c) {g : Frame W C} (hb : Beside c f g) :
    (∀ q, lockOf f = some q → lockOf g ≠ some q) ∧ ∀ n, nodeOf f = some n → nodeOf g ≠ some n := by
  constructor
  · intro q hf hg
    have hle := hb.le_total (holds q)
    rw [h.locked q, holds, holds, if_pos hf, if_pos hg] at hle
    exact absurd (hle.trans (Bool.toNat_le _)) (by decide)
  · intro n hf hg
    have hle := hb.le_total (uses n)
    rw [uses, uses, if_pos hf, if_pos hg] at hle
    exact absurd (hle.trans (h.used n).1) (by decide)

/-- What a frame knows stays true while others run. -/
theorem Sound.knows_beside (h : Sound c) (ha : Acts client c.mem f c'.mem fs) (hk : Knows c.mem f) {g : Frame W C}
    (hb : Beside c f g) (hg : Knows c.mem g) : Knows c'.mem g := by
  obtain ⟨hlock, hnode⟩ := h.apart hb
  have hnext : c.mem.nextNode ≤ c'.mem.nextNode := by
    cases ha.lists hk with
    | same _ _ hnext | erase _ _ _ _ _ _ _ hnext => exact hnext.ge
    | insert p _ hm _ => rw [hm]; exact Nat.le_succ _
  have hparked : ∀ (p : Park W C) n, nodeOf g = some n → Parked c.mem p n → Parked c'.mem p n := by
    intro p n hgn hp
    refine hp.mono (ha.later hp.lt) hnext fun hin hs => ?_
    cases ha.lists hk with
    | same hlist _ _ => rw [hlist]; exact hin
    | insert p' _ hm _ =>
      rw [hm, insertHead_list]
      split
      · exact List.mem_cons_of_mem _ hin
      · exact hin
    | erase q k _ _ hf hlist _ _ =>
      rw [hlist]
      have hne : n ≠ k := by
        rintro rfl
        rcases hf with hf | hf
        · exact hnode n hf.1 hgn
        · -- a signaled node
          obtain ⟨u, last, seen, rest, rfl⟩ : ∃ u last seen rest, f = .unparkErase u n last seen rest := by
            cases f <;> cases hf
            exact ⟨_, _, _, _, rfl⟩
          rw [(ha.later hp.lt).signaled hk.2.2] at hs
          cases hs
      split
      · exact (List.mem_erase_of_ne hne).mpr hin
      · exact hin
  have hahead : ∀ (u : Unpark C) rest, lockOf g = some u.queue → Ahead c.mem u rest → Ahead c'.mem u rest := by
    intro u rest hgu hahead
    refine hahead.mono (fun n hn => ha.later (h.listed _ n hn).1) ?_
    cases ha.lists hk with
    | same hlist _ _ => exact hlist _
    | insert p hf hm _ =>
      rw [hm, insertHead_list, if_neg]
      rintro hq
      exact hlock p.queue (by rw [hf]; rfl) (by rw [hgu, hq])
    | erase q n hq _ _ hlist _ _ =>
      rw [hlist, if_neg]
      rintro rfl
      exact hlock _ hq hgu
  have hlater : ∀ (u : Unpark C) n rest, Ahead c.mem u (n :: rest) → (c.mem.node n).Later (c'.mem.node n) :=
    fun u n rest hn => ha.later (h.listed _ n (mem_of_ahead hn)).1
  cases g with
  | parkUnlock p n | waitLock p n | waitTest p n timeout | waiting p n | timeoutLock p n | timeoutCheck p n =>
    exact hparked p n rfl hg
  | waitUnlock p n timeout =>
    exact ⟨hparked p n rfl hg.1, fun ht => (ha.later hg.1.lt).signaled (hg.2 ht)⟩
  | unparkScan u seen rest => exact hahead u rest rfl hg
  | unparkUncount u last seen rest =>
    cases last with
    | false => exact hahead u rest rfl hg
    | true => trivial
  | unparkWake u n last seen rest =>
    exact ⟨hahead u _ rfl hg.1, (matches_later (hlater u n rest hg.1)).mpr hg.2⟩
  | unparkErase u n last seen rest =>
    have hl := hlater u n rest hg.1
    exact ⟨hahead u _ rfl hg.1, (matches_later hl).mpr hg.2.1, hl.signaled hg.2.2⟩
  | _ => trivial

theorem Sound.tended_step (h : Sound c) (hs : Step (code client) c f x c') (hk : Knows c.mem f) (q : BitVec 64) (n : ℕ)
    (hn : n ∈ (c'.mem.queue q).list) : ∃ g ∈ c'.frames, Tends c'.mem n g := by
  obtain ⟨fs, he⟩ := hs.runs_code
  have ha := acts_of_code he
  have hnew : ∀ {g}, g ∈ fs → g ∈ c'.frames := fun hg => hs.mem_of_new he hg
  -- a node that was listed before
  have hold : n ∈ (c.mem.queue q).list → ∃ g ∈ c'.frames, Tends c'.mem n g := by
    intro hin
    obtain ⟨hlt, hq, -⟩ := h.listed q n hin
    obtain ⟨g, hg, ht⟩ := h.tended q n hin
    by_cases hgf : g = f
    · obtain ⟨g', hg', ht'⟩ := ha.tends hk hlt (hgf ▸ ht) h.nodup (by rw [hq]; exact hn)
      exact ⟨g', hnew hg', ht'⟩
    · by_cases hsig : (c'.mem.node n).signaled = (c.mem.node n).signaled
      · exact ⟨g, hs.mem_of_ne hg hgf, by rw [Tends, hsig]; exact ht⟩
      · obtain ⟨htrue, g', hg', hr⟩ := ha.signals hlt hsig
        exact ⟨g', hnew hg', by rw [Tends, if_pos htrue]; exact hr⟩
  cases ha.lists hk with
  | same hlist _ _ => exact hold (hlist q ▸ hn)
  | insert p hf hm hfs =>
    by_cases hin : n ∈ (c.mem.queue q).list
    · exact hold hin
    · obtain rfl : n = c.mem.nextNode := by
        rw [hm, insertHead_list] at hn
        split at hn
        · exact (List.mem_cons.mp hn).resolve_right hin
        · exact absurd hn hin
      refine ⟨_, hnew (hfs ▸ List.mem_singleton.mpr rfl), ?_⟩
      rw [Tends, hm, insertHead_node, Function.update_self, if_neg Bool.false_ne_true]
      rfl
  | erase q₀ n₀ _ _ _ hlist _ _ =>
    rw [hlist] at hn
    refine hold ?_
    split at hn
    · exact List.mem_of_mem_erase hn
    · exact hn

theorem Sound.step (h : Sound c) (hs : Step (code client) c f x c') : Sound c' := by
  have hk := h.knows f hs.mem_frame
  obtain ⟨fs, he⟩ := hs.runs_code
  have ha := acts_of_code he
  refine ⟨fun q => locked_step hs (h.locked q), fun q => count_step hs hk (h.count q), fun n => used_step hs n (h.used n),
    fun q => (listed_step ha hk h.listed h.nodup q).1, fun q => (listed_step ha hk h.listed h.nodup q).2,
    unlisted_step ha hk h.listed h.unlisted, h.tended_step hs hk, ?_⟩
  refine hs.all h.knows (fun gs hgs => (acts_of_code hgs).knows hk h.listed h.nodup) fun g hb hg => ?_
  exact h.knows_beside ha hk hb hg

theorem sound_start {w : W} {threads : List (List (Frame W C))} (hi : ∀ k ∈ threads, ∀ f ∈ k, Idle f) :
    Sound ⟨start w, threads⟩ := by
  have hzero : ∀ {g : Frame W C → ℕ}, (∀ f, Idle f → g f = 0) → (⟨start w, threads⟩ : Config _ _).total g = 0 := by
    intro g hg
    refine List.sum_eq_zero fun k hk => ?_
    obtain ⟨f, hf, rfl⟩ := List.mem_map.mp hk
    obtain ⟨l, hl, hf⟩ := List.mem_flatten.mp hf
    exact hg f (hi l hl f hf)
  refine ⟨fun q => hzero (holds_idle q), fun q => by rw [hzero (counted_idle q)]; rfl, fun n => ?_,
    fun q n hn => absurd hn List.not_mem_nil, fun q => List.nodup_nil, fun n hn => absurd hn n.not_lt_zero,
    fun q n hn => absurd hn List.not_mem_nil, fun f hf => ?_⟩
  · have h0 := hzero (uses_idle n)
    exact ⟨h0.le.trans (Nat.zero_le 1), fun _ => h0⟩
  · obtain ⟨l, hl, hf⟩ := List.mem_flatten.mp hf
    have := hi l hl f hf
    cases f <;> trivial

theorem sound_of_reaches {guard : Guard (Shared W) (Frame W C)} {w : W} {threads : List (List (Frame W C))}
    (hi : ∀ k ∈ threads, ∀ f ∈ k, Idle f) (h : Reaches (code client) guard ⟨start w, threads⟩ c) : Sound c := by
  induction h with
  | refl => exact sound_start hi
  | step _ _ hs ih => exact ih.step hs

end Runs

end Zpc.ParkingLot
