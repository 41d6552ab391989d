import Zpc.ParkingLotSound

/-!
# The lifetime of a wait node

`unpark` deletes the node as soon as it has signaled it, whatever its waiter is about to
do. As long as every waiter has left its wait by then, no deleted node is used.
-/
namespace Zpc.ParkingLot
open Interleaving

variable {W C X : Type*} {client : Client W C X} {c c' : Config (Shared W) (Frame W C)} {m m' : Shared W}
  {f : Frame W C} {fs : List (Frame W C)} {x : Bool × X}

/-- Before `unpark` erases a node, the thread that waited on it has left `waitFor` with the
signal, and is not about to look at the node after a timeout. -/
def leftBeforeErase : Guard (Shared W) (Frame W C) := fun c f =>
  ∀ n, erasing f = some n → ∀ g ∈ c.frames, nodeOf g ≠ some n

instance (c : Config (Shared W) (Frame W C)) (f : Frame W C) : Decidable (leftBeforeErase c f) :=
  match h : erasing f with
  | none => .isTrue fun n hn => by rw [h] at hn; cases hn
  | some n => decidable_of_iff (∀ g ∈ c.frames, nodeOf g ≠ some n)
      ⟨fun hall k hk => by rw [h] at hk; cases hk; exact hall, fun hall => hall n h⟩

/-- No node is used any more that was deleted. -/
structure Kept (c : Config (Shared W) (Frame W C)) : Prop where
  misused : c.mem.misused = false
  alive : ∀ f ∈ c.frames, ∀ n, nodeOf f = some n → (c.mem.node n).erased = 0

theorem onNode_misused {n : ℕ} {g : WaitNode → WaitNode} : (m.onNode n g).misused = m.misused := rfl

theorem touch_misused {n : ℕ} (h : (m.node n).erased = 0) : (m.touch n).misused = m.misused := by
  show (m.misused || decide (0 < (m.node n).erased)) = _
  rw [h]
  exact Bool.or_false _

theorem erase_misused {q : BitVec 64} {n : ℕ} : (m.erase q n).misused = m.misused := by
  rw [Shared.erase]
  split <;> rfl

/-- Whoever uses a node waits on it, or finds it in its list. -/
theorem Acts.misused (h : Acts client m f m' fs) (hk : Knows m f) (hu : ∀ n, nodeOf f = some n → (m.node n).erased = 0)
    (hl : ∀ q, ∀ n ∈ (m.queue q).list, (m.node n).erased = 0) : m'.misused = m.misused := by
  cases h with
  | waitLock p n | sleep p n hs | leave p n timeout hs | waiting p n timeout ht | woken p n | timedOut p n
  | tooLate p n hs => exact touch_misused (hu n rfl)
  | withdraw p n hs => exact erase_misused.trans (touch_misused (hu n rfl))
  | visit u seen n rest hn | pass u seen n rest hn => exact touch_misused (hl _ n (mem_of_ahead hk))
  | wake u n last seen rest => exact touch_misused (hl _ n (mem_of_ahead hk.1))
  | erase u n last seen rest => exact erase_misused
  | _ => rfl

/-- The frame that comes next waits on no other node, unless on a new one. -/
theorem Acts.waits (h : Acts client m f m' fs) : ∀ g ∈ fs, ∀ n, nodeOf g = some n →
    nodeOf f = some n ∧ (∀ k, (m'.node k).erased = (m.node k).erased) ∨ (m'.node n).erased = 0 := by
  have hkeep : ∀ {k : ℕ} {g : WaitNode → WaitNode}, (∀ d : WaitNode, (g d).erased = d.erased) →
      ∀ n, (((m.touch k).onNode k g).node n).erased = (m.node n).erased :=
    fun hg n => onNode_erased hg
  cases h with
  | client k x w nx hk =>
    intro g hg n hn
    cases nx <;> simp [Next.frames] at hg <;> rw [hg] at hn <;> cases hn
  | visit u seen n rest hk =>
    intro g hg k hk
    rw [List.mem_singleton.mp hg, nodeOf_visit] at hk
    cases hk
  | insert p hp =>
    intro g hg n hn
    rw [List.mem_singleton.mp hg] at hn
    cases hn
    refine .inr ?_
    rw [insertHead_node, Function.update_self]
  | waitLock p n | sleep p n hs | waiting p n timeout ht | timedOut p n =>
    intro g hg k hk
    rw [List.mem_singleton.mp hg] at hk
    cases hk
    exact .inl ⟨rfl, hkeep fun _ => rfl⟩
  | parkUnlock p n | leave p n timeout hs | timeoutLock p n hq =>
    intro g hg k hk
    rw [List.mem_singleton.mp hg] at hk
    cases hk
    exact .inl ⟨rfl, fun _ => rfl⟩
  | _ =>
    intro g hg n hn
    rw [List.mem_singleton.mp hg] at hn
    cases hn

theorem Kept.step (h : Kept c) (hsound : Sound c) (hg : leftBeforeErase c f) (hs : Step (code client) c f x c') :
    Kept c' := by
  have hk := hsound.knows f hs.mem_frame
  obtain ⟨fs, he⟩ := hs.runs_code
  have ha := acts_of_code he
  refine ⟨(ha.misused hk (h.alive f hs.mem_frame) fun q n hn => (hsound.listed q n hn).2.2).trans h.misused,
    hs.all h.alive (fun gs hgs g hgg n hn => ?_) fun g hb hgk n hn => ?_⟩
  · rcases (acts_of_code hgs).waits g hgg n hn with ⟨hf, hsame⟩ | h0
    · rw [hsame]
      exact h.alive f hs.mem_frame n hf
    · exact h0
  · -- the only frame that may have erased the node waits on it or has seen its waiter leave
    cases ha.lists hk with
    | same _ herased _ =>
      rw [herased]
      exact hgk n hn
    | insert p _ hm _ =>
      have hlt : n < c.mem.nextNode := by
        by_contra hge
        have := le_total (uses n) hb.mem
        rw [(hsound.used n).2 (Nat.le_of_not_lt hge), uses, if_pos hn] at this
        exact absurd this (by decide)
      rw [hm, insertHead_old p hlt]
      exact hgk n hn
    | erase q k _ _ hf _ herased _ =>
      rw [herased, if_neg]
      · exact hgk n hn
      · rintro rfl
        rcases hf with hf | hf
        · exact (hsound.apart hb).2 n hf.1 hn
        · exact hg n hf g hb.mem hn

/-- While every waiter has left by the time its node is erased, no node is used after that,
and every node is erased exactly once: not as long as a thread waits on it or is about to
erase it, and then for good. -/
theorem node_lifetime {w : W} {threads : List (List (Frame W C))} (hi : ∀ k ∈ threads, ∀ f ∈ k, Idle f)
    (h : Reaches (code client) leftBeforeErase ⟨start w, threads⟩ c) :
    c.mem.misused = false ∧ ∀ n < c.mem.nextNode,
      (c.mem.node n).erased = 0 ∧ (∃ f ∈ c.frames, nodeOf f = some n ∨ erasing f = some n) ∨
      (c.mem.node n).erased = 1 ∧ ∀ f ∈ c.frames, nodeOf f ≠ some n ∧ erasing f ≠ some n := by
  have hkept : Kept c := by
    induction h with
    | refl => exact ⟨rfl, fun _ _ _ _ => rfl⟩
    | step h' hg hs ih => exact ih.step (sound_of_reaches hi h') hg hs
  have hsound := sound_of_reaches hi h
  refine ⟨hkept.misused, fun n hn => ?_⟩
  by_cases hin : n ∈ (c.mem.queue (getQueue (c.mem.node n).key)).list
  · obtain ⟨f, hf, ht⟩ := hsound.tended _ n hin
    refine .inl ⟨(hsound.listed _ n hin).2.2, f, hf, ?_⟩
    unfold Tends at ht
    split at ht
    · exact .inr ht
    · exact .inl ht
  · have h1 := hsound.unlisted n hn hin
    refine .inr ⟨h1, fun f hf => ⟨fun hnode => ?_, fun her => ?_⟩⟩
    · rw [hkept.alive f hf n hnode] at h1
      cases h1
    · obtain ⟨u, last, seen, rest, rfl⟩ : ∃ u last seen rest, f = .unparkErase u n last seen rest := by
        cases f <;> cases her
        exact ⟨_, _, _, _, rfl⟩
      rw [(hsound.listed _ n (mem_of_ahead (hsound.knows _ hf).1)).2.2] at h1
      cases h1

section Example
/-- Callers that make one call. -/
def once : Client Unit Unit Unit := fun _ _ _ => some ((), .done)

def somePark : Park Unit Unit := ⟨0, 0, 1, fun _ => true, false, 0, fun _ => ()⟩

def someUnpark : Unpark Unit := ⟨0, 0, fun _ _ => .removeBreak, ()⟩

/-- One thread parks and leaves before the other erases its node. -/
theorem node_lifetime_once : ∃ c, Reaches (code once) leftBeforeErase
    ⟨start (), [[.parkFor somePark], [.unpark someUnpark]]⟩ c ∧ c.mem.misused = false ∧ (c.mem.node 0).erased = 1 := by
  have he : (runs (code once) leftBeforeErase ⟨start (), [[.parkFor somePark], [.unpark someUnpark]]⟩
      ([0, 0, 0, 0, 0, 0, 1, 1, 1, 1, 0, 0, 0, 0, 1, 1, 1, 1].map fun t => (t, false, ()))).map
        (fun c => (c.mem.nextNode, c.threads)) = some (1, [[], []]) := rfl
  obtain ⟨c, hc, he⟩ := Option.map_eq_some_iff.mp he
  simp only [Prod.mk.injEq] at he
  have hr := reaches_of_runs hc
  have hlife := node_lifetime (by simp [Idle]) hr
  refine ⟨c, hr, hlife.1, ?_⟩
  rcases hlife.2 0 (by rw [he.1]; decide) with ⟨-, f, hf, -⟩ | ⟨h1, -⟩
  · rw [Config.frames, he.2] at hf
    cases hf
  · exact h1

/-- The other thread signals the node and erases it before its waiter first locks it. -/
theorem node_used_after_erase : ¬ ∀ c, Reaches (code once) free
    ⟨start (), [[.parkFor somePark], [.unpark someUnpark]]⟩ c → c.mem.misused = false := by
  intro h
  have he : (runs (code once) free ⟨start (), [[.parkFor somePark], [.unpark someUnpark]]⟩
      ([0, 0, 0, 0, 1, 1, 1, 1, 1, 0].map fun t => (t, false, ()))).map (fun c => (c.mem.misused)) = some true := rfl
  obtain ⟨c, hc, he⟩ := Option.map_eq_some_iff.mp he
  have hm := h c (reaches_of_runs hc)
  rw [hm] at he
  cases he

end Example

end Zpc.ParkingLot
