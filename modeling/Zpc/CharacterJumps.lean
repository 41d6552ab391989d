import Zpc.CharacterState

/-!
# When a character jumps

In a run of frames and resets the coyote timer is the time since the last ground contact,
and a jump is spent until there is ground contact again. Only the landing state starts
jumps without looking at the timer.
-/
namespace Zpc.Character
open LocomotionState

variable {Q : Type*} {geo : Geometry Q} {cfg : CharacterConfig} {s : Machine Q} {intent : MovementIntent}
  {ground : GroundInfo} {dt : ℚ}

section Updates
/-- The frame sets off a jump. -/
def JumpStarted (s s' : Machine Q) : Prop := s.currentState ≠ jumpAscend ∧ s'.currentState = jumpAscend

/-- A jump is started on landing although there is no ground any more, and has not been for
longer than the coyote time. -/
def LateLanding (cfg : CharacterConfig) (s : Machine Q) (intent : MovementIntent) (ground : GroundInfo) (dt : ℚ) : Prop :=
  s.currentState = land ∧ cfg.landRecoveryTime ≤ s.timeInState + dt ∧ 0 < (s.track cfg intent ground dt).jumpBufferTimer ∧
    ground.grounded = false ∧ cfg.coyoteTime < s.coyoteTimer + dt

@[simp] theorem transition_state (next : LocomotionState) : (s.transition next).currentState = next := by
  unfold Machine.transition
  split
  next h => exact h.symm
  next => rfl

@[simp] theorem transition_hasJumped (next : LocomotionState) : (s.transition next).hasJumped = s.hasJumped := by
  unfold Machine.transition
  split <;> rfl

@[simp] theorem transition_coyoteTimer (next : LocomotionState) : (s.transition next).coyoteTimer = s.coyoteTimer := by
  unfold Machine.transition
  split <;> rfl

@[simp] theorem startJump_state : (s.startJump cfg).currentState = jumpAscend := transition_state _

@[simp] theorem startJump_hasJumped : (s.startJump cfg).hasJumped = true := transition_hasJumped _

@[simp] theorem startJump_coyoteTimer : (s.startJump cfg).coyoteTimer = s.coyoteTimer := transition_coyoteTimer _

variable (geo cfg s intent ground dt) in
/-- The rest of the frame changes the position, the velocity and the rotation only. -/
theorem update_frame {α : Type*} (view : Machine Q → α)
    (hview : ∀ s pos vel rot, view { s with position := pos, velocity := vel, rotation := rot } = view s) :
    view (s.update geo cfg intent ground dt).1 = view ((s.track cfg intent ground dt).switch cfg intent ground) := by
  have hrotate : ∀ s : Machine Q, view (s.rotate geo cfg intent dt) = view s := by
    intro s
    unfold Machine.rotate
    simp only
    split
    · exact hview s s.position s.velocity _
    · rfl
  have hdrop : ∀ s : Machine Q, view (s.dropDown cfg ground dt) = view s := by
    intro s
    unfold Machine.dropDown
    split_ifs <;> exact hview s s.position _ s.rotation
  have hdrive : ∀ s : Machine Q, view (s.drive geo cfg intent dt) = view s := by
    intro s
    unfold Machine.drive
    simp only
    split_ifs <;> exact hview s s.position _ s.rotation
  have hintegrate : ∀ s : Machine Q, view (s.integrate dt) = view s := fun s => hview s _ s.velocity s.rotation
  unfold Machine.update
  simp only
  rw [hrotate, hintegrate, hdrop, hdrive]

/-- What the rest of the frame leaves as it is. -/
theorem update_kept : (s.update geo cfg intent ground dt).1.currentState =
      ((s.track cfg intent ground dt).switch cfg intent ground).currentState ∧
    (s.update geo cfg intent ground dt).1.hasJumped = ((s.track cfg intent ground dt).switch cfg intent ground).hasJumped ∧
    (s.update geo cfg intent ground dt).1.coyoteTimer =
      ((s.track cfg intent ground dt).switch cfg intent ground).coyoteTimer :=
  ⟨update_frame geo cfg s intent ground dt Machine.currentState fun _ _ _ _ => rfl,
    update_frame geo cfg s intent ground dt Machine.hasJumped fun _ _ _ _ => rfl,
    update_frame geo cfg s intent ground dt Machine.coyoteTimer fun _ _ _ _ => rfl⟩

def Aloft (st : LocomotionState) : Prop := st = jumpAscend ∨ st = jumpApex ∨ st = fall

/-- What the transitions of a frame do: a jump in time, a jump of a landing character, or
some other transition, which takes nobody out of the air who is off the ground. -/
inductive Switches (cfg : CharacterConfig) (s : Machine Q) (grounded : Bool) : Machine Q → Prop
  | jump (hst : s.currentState ≠ jumpAscend ∧ s.currentState ≠ land) (htime : s.coyoteTimer ≤ cfg.coyoteTime)
      (hfresh : s.hasJumped = false) : Switches cfg s grounded (s.startJump cfg)
  | landingJump (hst : s.currentState = land) (hrec : cfg.landRecoveryTime ≤ s.timeInState) (hbuf : 0 < s.jumpBufferTimer) :
      Switches cfg s grounded (s.startJump cfg)
  | other (s' : Machine Q) (htimer : s'.coyoteTimer = s.coyoteTimer) (hjumped : s'.hasJumped = s.hasJumped)
      (hascend : s'.currentState = jumpAscend → s.currentState = jumpAscend)
      (hland : s.currentState = land → ¬ (cfg.landRecoveryTime ≤ s.timeInState ∧ 0 < s.jumpBufferTimer))
      (haloft : grounded = false → Aloft s.currentState → Aloft s'.currentState) : Switches cfg s grounded s'

theorem switches_walk {grounded : Bool} {next : LocomotionState} (hst : s.currentState ≠ land ∧ ¬ Aloft s.currentState)
    (hnext : next ≠ jumpAscend) : Switches cfg s grounded (s.transition next) := by
  refine .other _ (transition_coyoteTimer _) (transition_hasJumped _) (fun h => ?_) (fun h => absurd h hst.1)
    fun _ h => absurd h hst.2
  rw [transition_state] at h
  exact absurd h hnext

theorem switch_switches (s : Machine Q) (intent : MovementIntent) (ground : GroundInfo) :
    Switches cfg s ground.grounded (s.switch cfg intent ground) := by
  have hcan : (decide (0 < s.jumpBufferTimer) && (decide (s.coyoteTimer ≤ cfg.coyoteTime) && !s.hasJumped)) = true →
      s.coyoteTimer ≤ cfg.coyoteTime ∧ s.hasJumped = false := by
    intro h
    rw [Bool.and_eq_true, Bool.and_eq_true, decide_eq_true_iff, decide_eq_true_iff, Bool.not_eq_true'] at h
    exact h.2
  unfold Machine.switch
  simp only
  split
  case h_1 hst | h_2 hst | h_3 hst | h_4 hst =>
    have hwalk : s.currentState ≠ land ∧ ¬ Aloft s.currentState := by
      rw [hst, Aloft]
      decide
    split
    · exact switches_walk hwalk (by decide)
    · split
      next hjump => exact .jump ⟨by rw [hst]; decide, hwalk.1⟩ (hcan hjump).1 (hcan hjump).2
      next => split_ifs <;> exact switches_walk hwalk (by decide)
  case h_5 hst =>
    refine .other _ ?_ ?_ (fun _ => hst) (fun h => by rw [hst] at h; cases h) fun hg _ => ?_
    · split_ifs <;> simp
    · split_ifs <;> simp
    · rw [hg, Bool.false_and, if_neg Bool.false_ne_true]
      split_ifs
      all_goals first
        | (rw [transition_state]; simp [Aloft])
        | exact .inl hst
  case h_6 hst =>
    refine .other _ ?_ ?_ (fun h => ?_) (fun h => by rw [hst] at h; cases h) fun hg _ => ?_
    · split_ifs <;> simp
    · split_ifs <;> simp
    · split_ifs at h <;> simp [hst] at h
    · rw [hg, Bool.false_and, if_neg Bool.false_ne_true]
      split_ifs
      · rw [transition_state]
        exact .inr (.inr rfl)
      · exact .inr (.inl hst)
  case h_7 hst =>
    split_ifs with hjump hground
    · exact .jump ⟨by rw [hst]; decide, by rw [hst]; decide⟩ (hcan hjump).1 (hcan hjump).2
    · refine .other _ (transition_coyoteTimer _) (transition_hasJumped _) (fun h => ?_)
        (fun h => by rw [hst] at h; cases h) fun hg _ => ?_
      · simp at h
      · rw [hground] at hg
        cases hg
    · exact .other _ rfl rfl id (fun h => by rw [hst] at h; cases h) fun _ h => h
  case h_8 hst =>
    have hland : ¬ Aloft s.currentState := by
      rw [hst, Aloft]
      decide
    have hother : ∀ {next : LocomotionState}, next ≠ jumpAscend → ¬ 0 < s.jumpBufferTimer →
        Switches cfg s ground.grounded (s.transition next) := by
      intro next hnext hbuf
      refine .other _ (transition_coyoteTimer _) (transition_hasJumped _) (fun h => ?_) (fun _ h => hbuf h.2)
        fun _ h => absurd h hland
      rw [transition_state] at h
      exact absurd h hnext
    split
    next hrec =>
      split
      next hbuf => exact .landingJump hst hrec (of_decide_eq_true hbuf)
      next hbuf =>
        rw [decide_eq_true_iff] at hbuf
        split
        · refine hother ?_ hbuf
          split <;> decide
        · exact hother (by decide) hbuf
    next hrec => exact .other _ rfl rfl id (fun _ h => hrec h.1) fun _ h => h

/-- The timer after the frame, which is also the one that the transitions have seen. -/
def timerAfter (s : Machine Q) (ground : GroundInfo) (dt : ℚ) : ℚ := if ground.grounded then 0 else s.coyoteTimer + dt

theorem update_switches (geo : Geometry Q) (cfg : CharacterConfig) (s : Machine Q) (intent : MovementIntent)
    (ground : GroundInfo) (dt : ℚ) :
    ∃ s', Switches cfg (s.track cfg intent ground dt) ground.grounded s' ∧
      (s.update geo cfg intent ground dt).1.currentState = s'.currentState ∧
      (s.update geo cfg intent ground dt).1.hasJumped = s'.hasJumped ∧
      (s.update geo cfg intent ground dt).1.coyoteTimer = s'.coyoteTimer :=
  ⟨_, switch_switches _ intent ground, update_kept⟩

theorem update_coyoteTimer : (s.update geo cfg intent ground dt).1.coyoteTimer = timerAfter s ground dt := by
  obtain ⟨s', hs, -, -, htimer⟩ := update_switches geo cfg s intent ground dt
  rw [htimer]
  cases hs with
  | jump hst htime hfresh => exact startJump_coyoteTimer
  | landingJump hst hrec hbuf => exact startJump_coyoteTimer
  | other s' htimer hjumped hascend hland haloft => exact htimer

/-- A jump is started in time and afresh, or by a landing character. -/
theorem started_cases (h : JumpStarted s (s.update geo cfg intent ground dt).1) :
    timerAfter s ground dt ≤ cfg.coyoteTime ∧ (ground.grounded = true ∨ s.hasJumped = false) ∨
      s.currentState = land ∧ cfg.landRecoveryTime ≤ s.timeInState + dt ∧
        0 < (s.track cfg intent ground dt).jumpBufferTimer := by
  obtain ⟨s', hs, hst', -⟩ := update_switches geo cfg s intent ground dt
  cases hs with
  | jump hst htime hfresh =>
    refine .inl ⟨htime, ?_⟩
    cases hg : ground.grounded with
    | true => exact .inl rfl
    | false =>
      have hkeep : (s.track cfg intent ground dt).hasJumped = s.hasJumped := by simp [Machine.track, hg]
      exact .inr (hkeep.symm.trans hfresh)
  | landingJump hst hrec hbuf => exact .inr ⟨hst, hrec, hbuf⟩
  | other s' htimer hjumped hascend hland haloft => exact absurd (hascend (hst'.symm.trans h.2)) h.1

theorem LateLanding.started (h : LateLanding cfg s intent ground dt) :
    JumpStarted s (s.update geo cfg intent ground dt).1 := by
  obtain ⟨s', hs, hst', -⟩ := update_switches geo cfg s intent ground dt
  have hst : s.currentState ≠ jumpAscend := by
    rw [h.1]
    decide
  refine ⟨hst, hst'.trans ?_⟩
  cases hs with
  | jump hst htime hfresh => exact startJump_state
  | landingJump hst hrec hbuf => exact startJump_state
  | other s' htimer hjumped hascend hland haloft => exact absurd ⟨h.2.1, h.2.2.1⟩ (hland h.1)

/-- Whoever jumps, or is in the air with the jump spent, is so until there is ground again. -/
theorem update_aloft (h : JumpStarted s (s.update geo cfg intent ground dt).1 ∨
      ground.grounded = false ∧ s.hasJumped = true ∧ Aloft s.currentState) :
    (s.update geo cfg intent ground dt).1.hasJumped = true ∧ Aloft (s.update geo cfg intent ground dt).1.currentState := by
  obtain ⟨s', hs, hst', hjump', -⟩ := update_switches geo cfg s intent ground dt
  rw [hst', hjump']
  cases hs with
  | jump hst htime hfresh => exact ⟨startJump_hasJumped, .inl startJump_state⟩
  | landingJump hst hrec hbuf => exact ⟨startJump_hasJumped, .inl startJump_state⟩
  | other s' htimer hjumped hascend hland haloft =>
    rcases h with hstart | ⟨hg, hj, ha⟩
    · exact absurd (hascend (hst'.symm.trans hstart.2)) hstart.1
    · have hkeep : (s.track cfg intent ground dt).hasJumped = s.hasJumped := by simp [Machine.track, hg]
      exact ⟨hjumped.trans (hkeep.trans hj), haloft hg ha⟩

end Updates

section Runs
inductive Event
  | frame (intent : MovementIntent) (ground : GroundInfo) (dt : ℚ)
  | reset (pos : Vec3)

namespace Event
def apply (geo : Geometry Q) (cfg : CharacterConfig) (s : Machine Q) : Event → Machine Q
  | frame intent ground dt => (s.update geo cfg intent ground dt).1
  | reset pos => .reset geo pos

/-- Ground contact; a reset counts as such. -/
def contact : Event → Bool
  | frame _ ground _ => ground.grounded
  | reset _ => true

def duration : Event → ℚ
  | frame _ _ dt => dt
  | reset _ => 0

end Event

variable (geo cfg) in
/-- The members of a new machine are those of one that has been reset. -/
def run (events : List Event) : Machine Q := events.foldl (Event.apply geo cfg) (.reset geo ⟨0, 0, 0⟩)

/-- The time of the frames after the last contact. -/
def sinceContact (events : List Event) : ℚ := ((events.reverse.takeWhile fun e => !e.contact).map Event.duration).sum

variable (geo cfg) in
/-- Frame `t` of the run starts a jump. -/
def StartsAt (events : List Event) (t : ℕ) : Prop :=
  (∃ intent ground dt, events[t]? = some (.frame intent ground dt)) ∧
    JumpStarted (run geo cfg (events.take t)) (run geo cfg (events.take (t+1)))

variable {events : List Event}

theorem run_concat (events : List Event) (e : Event) :
    run geo cfg (events ++ [e]) = e.apply geo cfg (run geo cfg events) := by
  rw [run, List.foldl_append]
  rfl

theorem run_take_succ {t : ℕ} {e : Event} (he : events[t]? = some e) :
    run geo cfg (events.take (t+1)) = e.apply geo cfg (run geo cfg (events.take t)) := by
  rw [List.take_add_one, he, Option.toList_some, run_concat]

theorem run_coyoteTimer (geo : Geometry Q) (cfg : CharacterConfig) (events : List Event) :
    (run geo cfg events).coyoteTimer = sinceContact events := by
  induction events using List.reverseRecOn with
  | nil => rfl
  | append_singleton events e ih =>
    rw [run_concat, sinceContact, List.reverse_append, List.reverse_singleton, List.singleton_append, List.takeWhile_cons]
    cases e with
    | reset pos => rfl
    | frame intent ground dt =>
      refine update_coyoteTimer.trans ?_
      cases hg : ground.grounded with
      | true => simp [timerAfter, Event.contact, hg]
      | false =>
        rw [timerAfter, hg, if_neg Bool.false_ne_true, ih, sinceContact]
        simp [Event.contact, Event.duration, hg, add_comm]

/-- As long as there is no ground contact after a jump, the jump is spent and the character in the air. -/
theorem run_aloft {i : ℕ} (hi : StartsAt geo cfg events i) {k : ℕ} (hik : i < k) (hk : k ≤ events.length)
    (hno : ∀ j e, i < j → j < k → events[j]? = some e → e.contact = false) :
    (run geo cfg (events.take k)).hasJumped = true ∧ Aloft (run geo cfg (events.take k)).currentState := by
  induction k, hik using Nat.le_induction with
  | base =>
    obtain ⟨⟨intent, ground, dt, he⟩, hstart⟩ := hi
    rw [run_take_succ he] at hstart ⊢
    exact update_aloft (.inl hstart)
  | succ k hik ih =>
    have he : events[k]? = some events[k] := List.getElem?_eq_getElem hk
    have hcontact := hno k _ hik (Nat.lt_succ_self k) he
    have haloft := ih (Nat.le_of_succ_le hk) fun j e hj hjk => hno j e hj (Nat.lt_succ_of_lt hjk)
    rw [run_take_succ he]
    generalize events[k] = e at hcontact
    cases e with
    | reset pos => cases hcontact
    | frame intent ground dt => exact update_aloft (.inr ⟨hcontact, haloft⟩)

theorem contact_between {i k : ℕ} (hik : i < k) (hi : StartsAt geo cfg events i) (hk : StartsAt geo cfg events k) :
    ∃ j e, i < j ∧ j ≤ k ∧ events[j]? = some e ∧ e.contact = true := by
  by_contra hnone
  have hno : ∀ j e, i < j → j ≤ k → events[j]? = some e → e.contact = false := by
    intro j e hj hjk he
    by_contra hc
    exact hnone ⟨j, e, hj, hjk, he, Bool.not_eq_false _ ▸ hc⟩
  obtain ⟨⟨intent, ground, dt, he⟩, hstart⟩ := hk
  have hlen : k ≤ events.length := (List.getElem?_eq_some_iff.mp he).1.le
  obtain ⟨hjumped, haloft⟩ := run_aloft hi hik hlen fun j e hj hjk => hno j e hj hjk.le
  have hg : ground.grounded = false := hno k _ hik le_rfl he
  rw [run_take_succ he] at hstart
  rcases started_cases hstart with ⟨-, hground | hfresh⟩ | ⟨hland, -⟩
  · rw [hg] at hground
    cases hground
  · rw [hjumped] at hfresh
    cases hfresh
  · rw [hland, Aloft] at haloft
    exact absurd haloft (by decide)

/-- In a run every jump starts on the ground or at most the coyote time after the last
contact, and two jumps have a contact between them, just when no landing character sets off
late. -/
theorem jumps_iff (geo : Geometry Q) (cfg : CharacterConfig) (events : List Event) :
    ((∀ t intent ground dt, events[t]? = some (.frame intent ground dt) →
        JumpStarted (run geo cfg (events.take t)) (run geo cfg (events.take (t+1))) →
        ground.grounded = true ∨ sinceContact (events.take (t+1)) ≤ cfg.coyoteTime) ∧
      ∀ i k, i < k → StartsAt geo cfg events i → StartsAt geo cfg events k →
        ∃ j e, i < j ∧ j ≤ k ∧ events[j]? = some e ∧ e.contact = true) ↔
    ∀ t intent ground dt, events[t]? = some (.frame intent ground dt) →
      ¬ LateLanding cfg (run geo cfg (events.take t)) intent ground dt := by
  have hbetween : ∀ i k, i < k → StartsAt geo cfg events i → StartsAt geo cfg events k →
      ∃ j e, i < j ∧ j ≤ k ∧ events[j]? = some e ∧ e.contact = true := fun i k hik hi hk => contact_between hik hi hk
  rw [and_iff_left hbetween]
  refine forall_congr' fun t => forall_congr' fun intent => forall_congr' fun ground => forall_congr' fun dt =>
    forall_congr' fun he => ?_
  have hsince : sinceContact (events.take (t+1)) = timerAfter (run geo cfg (events.take t)) ground dt := by
    rw [← run_coyoteTimer geo cfg, run_take_succ he]
    exact update_coyoteTimer
  rw [hsince, run_take_succ he]
  constructor
  · intro htime hlate
    have htimer : timerAfter (run geo cfg (events.take t)) ground dt = (run geo cfg (events.take t)).coyoteTimer + dt := by
      rw [timerAfter, hlate.2.2.2.1, if_neg Bool.false_ne_true]
    rcases htime hlate.started with hg | hle
    · rw [hlate.2.2.2.1] at hg
      cases hg
    · rw [htimer] at hle
      exact absurd hlate.2.2.2.2 (not_lt.mpr hle)
  · intro hlate hstart
    rcases started_cases hstart with ⟨hle, -⟩ | ⟨hland, hrec, hbuf⟩
    · exact .inr hle
    · cases hg : ground.grounded with
      | true => exact .inl rfl
      | false =>
        rw [timerAfter, hg, if_neg Bool.false_ne_true]
        exact .inr (not_lt.mp fun hlt => hlate ⟨hland, hrec, hbuf, hg, hlt⟩)

end Runs

section Example
def flat : Geometry Unit := ⟨id, (), fun _ _ _ => ()⟩

def someGround : GroundInfo := ⟨true, ⟨0, 1, 0⟩, ⟨0, 0, 0⟩, 0, 0⟩

def noGround : GroundInfo := ⟨false, ⟨0, 1, 0⟩, ⟨0, 0, 0⟩, 1, 0⟩

def noIntent : MovementIntent := ⟨⟨0, 0, 0⟩, 0, false, false⟩

/-- The character leaves the ground and falls, lands, walks off the ledge at once, and
half a second later the jump button is pressed. -/
def lateJump : List Event :=
  [.frame noIntent noGround (1 / 2), .frame noIntent someGround (1 / 60),
    .frame { noIntent with wantsJump := true } noGround (1 / 2)]

theorem late_jump : ¬ ∀ (events : List Event) (t : ℕ) (intent : MovementIntent) (ground : GroundInfo) (dt : ℚ),
    events[t]? = some (.frame intent ground dt) →
      JumpStarted (run flat .default (events.take t)) (run flat .default (events.take (t+1))) →
      ground.grounded = true ∨ sinceContact (events.take (t+1)) ≤ CharacterConfig.default.coyoteTime := by
  intro h
  have hstart : JumpStarted (run flat .default (lateJump.take 2)) (run flat .default (lateJump.take 3)) := by
    constructor <;> decide +kernel
  rcases h lateJump 2 _ noGround (1 / 2) rfl hstart with hg | hle
  · cases hg
  · exact absurd hle (by decide +kernel)

end Example

end Zpc.Character
