import Zpc.InputBuffer
import Zpc.CharacterJumps

/-!
# GameplayPipeline

A frame turns the input into the intent of the character, updates the character and the
camera, and reports on both. The transitions of the frame are read off the current and the
previous state of the character, which stay as they are until the next transition.
-/
namespace Zpc.GameplayPipeline
open ActionMap Character

/-- The hash of the name of an action. -/
def actionId (name : String) : ActionId :=
  name.toList.foldl (fun hash c => (hash ^^^ BitVec.ofNat 32 c.toNat) * 16777619) 2166136261

def kActionJump : ActionId := actionId "jump"

def kActionSprint : ActionId := actionId "sprint"

structure PipelineConfig where
  lookSensitivityX : ℚ := 3 / 1000
  lookSensitivityY : ℚ := 3 / 1000
  invertPitchInput : Bool := false

/-- What the pipeline does with the camera rig. -/
structure CameraRig (R O Q : Type*) where
  reset : R → Vec3 → R
  feed : R → Vec3 → Q → ℚ → ℚ → R
  update : R → FrameContext ℚ → O × R
  clearInputs : R → R

structure FrameTelemetry where
  stateTransitionsThisFrame : BitVec 32
  velocityMagnitude : ℚ
  frameNumber : BitVec 64

structure PipelineOutput (O Q : Type*) where
  character : CharacterSnapshot Q
  camera : O
  telemetry : FrameTelemetry

end GameplayPipeline

open GameplayPipeline ActionMap Character

structure GameplayPipeline (R Q : Type*) where
  pipelineConfig : PipelineConfig
  character : Machine Q
  rig : R

namespace GameplayPipeline
variable {R O Q : Type*} (geo : Geometry Q) (cfg : CharacterConfig) (camera : CameraRig R O Q)

def reset (p : GameplayPipeline R Q) (startPosition : Vec3) : GameplayPipeline R Q :=
  { p with character := .reset geo startPosition, rig := camera.reset p.rig startPosition }

def buildMovementIntent (input : ActionSnapshot ℚ) : MovementIntent :=
  let mag := geo.sqrt (input.moveAxis.1 * input.moveAxis.1 + input.moveAxis.2 * input.moveAxis.2)
  let moves := decide (1 / 1000000 < mag)
  { direction := if moves then ⟨input.moveAxis.1 / mag, 0, input.moveAxis.2 / mag⟩ else ⟨0, 0, 0⟩
    magnitude := if moves then (if 1 < mag then 1 else mag) else 0
    wantsJump := input.justPressed kActionJump
    wantsSprint := input.isActive kActionSprint }

def feedCameraInputs (p : GameplayPipeline R Q) (input : ActionSnapshot ℚ) (charSnap : CharacterSnapshot Q) : R :=
  let pitchDelta := input.lookAxis.2 * p.pipelineConfig.lookSensitivityY
  camera.feed p.rig charSnap.position charSnap.rotation (input.lookAxis.1 * p.pipelineConfig.lookSensitivityX)
    (if p.pipelineConfig.invertPitchInput then -pitchDelta else pitchDelta)

def update (p : GameplayPipeline R Q) (input : ActionSnapshot ℚ) (ground : GroundInfo) :
    PipelineOutput O Q × GameplayPipeline R Q :=
  let (character, charSnap) := p.character.update geo cfg (buildMovementIntent geo input) ground input.frame.dt
  let (camOut, rig) := camera.update (p.feedCameraInputs camera input charSnap) input.frame
  let telemetry := {
    stateTransitionsThisFrame := if charSnap.state ≠ charSnap.previousState then 1 else 0
    velocityMagnitude := charSnap.speed
    frameNumber := input.frame.frameNumber }
  (⟨charSnap, camOut, telemetry⟩, { p with character := character, rig := camera.clearInputs rig })

section Transitions
variable {cfg} {s s' : Machine Q}

/-- At most one transition: none, or one that is counted and leaves the old state as the
previous one. -/
def Counted (s s' : Machine Q) : Prop :=
  (s'.currentState = s.currentState ∧ s'.previousState = s.previousState ∧ s'.transitionCount = s.transitionCount) ∨
    (s'.currentState ≠ s.currentState ∧ s'.previousState = s.currentState ∧ s'.transitionCount = s.transitionCount + 1)

theorem Counted.refl (s : Machine Q) : Counted s s := .inl ⟨rfl, rfl, rfl⟩

theorem counted_transition (s : Machine Q) (next : LocomotionState) : Counted s (s.transition next) := by
  unfold Machine.transition
  split_ifs with hsame
  · exact .refl s
  · exact .inr ⟨hsame, rfl, rfl⟩

theorem counted_startJump (s : Machine Q) : Counted s (s.startJump cfg) := counted_transition _ _

theorem transition_timeInState {next : LocomotionState} (hnext : next ≠ s.currentState) :
    (s.transition next).timeInState = 0 := by
  rw [Machine.transition, if_neg hnext]

/-- A landing that looks at the time in the state does not follow a transition of the same frame. -/
theorem counted_land {limit : ℚ} (hlimit : 0 ≤ limit) {grounded : Bool} (hs : Counted s s')
    (htime : s'.currentState ≠ s.currentState → s'.timeInState = 0) :
    Counted s (if grounded && decide (limit < s'.timeInState) then s'.transition .land else s') := by
  split_ifs with hland
  · rw [Bool.and_eq_true, decide_eq_true_iff] at hland
    rcases hs with ⟨hcur, hprev, hcount⟩ | ⟨hmoved, -, -⟩
    · rcases counted_transition s' .land with ⟨h1, h2, h3⟩ | ⟨h1, h2, h3⟩
      · exact .inl ⟨h1.trans hcur, h2.trans hprev, h3.trans hcount⟩
      · exact .inr ⟨by rwa [hcur] at h1, h2.trans hcur, by rw [h3, hcount]⟩
    · rw [htime hmoved] at hland
      exact absurd hland.2 (not_lt.mpr hlimit)
  · exact hs

theorem counted_switch (s : Machine Q) (intent : MovementIntent) (ground : GroundInfo) :
    Counted s (s.switch cfg intent ground) := by
  unfold Machine.switch
  simp only
  split
  case h_1 | h_2 | h_3 | h_4 =>
    split_ifs <;> first | exact counted_transition s _ | exact counted_startJump s
  case h_5 hst =>
    have hcut : ∀ velocity : Vec3, ∀ next, next ≠ LocomotionState.jumpAscend →
        ({ s with velocity := velocity }.transition next).timeInState = 0 := by
      intro velocity next hnext
      exact transition_timeInState (s := { s with velocity := velocity }) (by simp only; rwa [hst])
    refine counted_land (by norm_num) ?_ ?_
    · split_ifs <;> first | exact counted_transition { s with velocity := _ } _ | exact .refl { s with velocity := _ }
    · split_ifs <;> first | exact fun _ => hcut _ _ (by decide) | exact fun h => absurd rfl h
  case h_6 hst =>
    refine counted_land (by norm_num) ?_ ?_
    · split_ifs <;> first | exact counted_transition s _ | exact .refl s
    · split_ifs
      · exact fun _ => transition_timeInState (by rw [hst]; decide)
      · exact fun h => absurd rfl h
  case h_7 => split_ifs <;> first | exact counted_startJump s | exact counted_transition s _ | exact .refl s
  case h_8 => split_ifs <;> first | exact counted_startJump s | exact counted_transition s _ | exact .refl s

end Transitions

section Runs
abbrev Frame := ActionSnapshot ℚ × GroundInfo

/-- The pipeline after a frame. -/
def next (p : GameplayPipeline R Q) (f : Frame) : GameplayPipeline R Q := (p.update geo cfg camera f.1 f.2).2

def telemetry (p : GameplayPipeline R Q) (f : Frame) : FrameTelemetry := (p.update geo cfg camera f.1 f.2).1.telemetry

def reports (p : GameplayPipeline R Q) : List Frame → List FrameTelemetry
  | [] => []
  | f :: fs => p.telemetry geo cfg camera f :: reports (p.next geo cfg camera f) fs

def after (p : GameplayPipeline R Q) (fs : List Frame) : GameplayPipeline R Q := fs.foldl (next geo cfg camera) p

def transitionsMade (p : GameplayPipeline R Q) (f : Frame) : BitVec 32 :=
  (p.next geo cfg camera f).character.transitionCount - p.character.transitionCount

def FramesExact (p : GameplayPipeline R Q) : List Frame → Prop
  | [] => True
  | f :: fs => (p.telemetry geo cfg camera f).stateTransitionsThisFrame = p.transitionsMade geo cfg camera f ∧
      FramesExact (p.next geo cfg camera f) fs

/-- The frames of a run are reported right, and add up to the counter of the character. -/
def Exact (p : GameplayPipeline R Q) (fs : List Frame) : Prop :=
  p.FramesExact geo cfg camera fs ∧
    ((p.reports geo cfg camera fs).map FrameTelemetry.stateTransitionsThisFrame).sum =
      (p.after geo cfg camera fs).character.transitionCount

def Moves (p : GameplayPipeline R Q) (f : Frame) : Prop :=
  (p.character.update geo cfg (buildMovementIntent geo f.1) f.2 f.1.frame.dt).1.currentState ≠ p.character.currentState

/-- After the first change of state every frame makes another. -/
def KeepsMoving (p : GameplayPipeline R Q) : List Frame → Prop
  | [] => True
  | f :: fs => (p.character.previousState ≠ p.character.currentState → p.Moves geo cfg f) ∧
      KeepsMoving (p.next geo cfg camera f) fs

variable {geo cfg camera} {p : GameplayPipeline R Q} {f : Frame}

theorem update_counted (geo : Geometry Q) (cfg : CharacterConfig) (s : Machine Q) (intent : MovementIntent)
    (ground : GroundInfo) (dt : ℚ) : Counted s (s.update geo cfg intent ground dt).1 := by
  have hcurrent := update_frame geo cfg s intent ground dt Machine.currentState fun _ _ _ _ => rfl
  have hprevious := update_frame geo cfg s intent ground dt Machine.previousState fun _ _ _ _ => rfl
  have hcount := update_frame geo cfg s intent ground dt Machine.transitionCount fun _ _ _ _ => rfl
  unfold Counted
  rw [hcurrent, hprevious, hcount]
  exact counted_switch (s.track cfg intent ground dt) intent ground

theorem next_counted : Counted p.character (p.next geo cfg camera f).character :=
  update_counted geo cfg p.character _ _ _

theorem telemetry_eq : (p.telemetry geo cfg camera f).stateTransitionsThisFrame =
    if (p.next geo cfg camera f).character.currentState ≠ (p.next geo cfg camera f).character.previousState then 1
    else 0 := rfl

/-- A frame is reported right unless it makes no transition after some earlier frame made one. -/
theorem frame_exact_iff :
    (p.telemetry geo cfg camera f).stateTransitionsThisFrame = p.transitionsMade geo cfg camera f ↔
      (p.character.previousState ≠ p.character.currentState → p.Moves geo cfg f) := by
  have hmoves : p.Moves geo cfg f ↔
      (p.next geo cfg camera f).character.currentState ≠ p.character.currentState := Iff.rfl
  rw [telemetry_eq, transitionsMade, hmoves]
  have hcounted : Counted p.character (p.next geo cfg camera f).character := next_counted
  rcases hcounted with ⟨hcur, hprev, hcount⟩ | ⟨hcur, hprev, hcount⟩
  · rw [hcur, hprev, hcount, BitVec.sub_self]
    by_cases hsame : p.character.previousState = p.character.currentState
    · simp [hsame]
    · simp [hsame, Ne.symm hsame]
  · rw [hprev, if_pos hcur, hcount]
    exact ⟨fun _ _ => hcur, fun _ => by rw [BitVec.add_comm, BitVec.add_sub_cancel]⟩

theorem framesExact_iff (fs : List Frame) : p.FramesExact geo cfg camera fs ↔ p.KeepsMoving geo cfg camera fs := by
  induction fs generalizing p with
  | nil => exact Iff.rfl
  | cons f fs ih => exact and_congr frame_exact_iff ih

theorem sum_reports {fs : List Frame} (hexact : p.FramesExact geo cfg camera fs) :
    p.character.transitionCount + ((p.reports geo cfg camera fs).map FrameTelemetry.stateTransitionsThisFrame).sum =
      (p.after geo cfg camera fs).character.transitionCount := by
  induction fs generalizing p with
  | nil => exact BitVec.add_zero _
  | cons f fs ih =>
    rw [after, List.foldl_cons, ← after, ← ih hexact.2, reports, List.map_cons, List.sum_cons, hexact.1,
      transitionsMade, ← BitVec.add_assoc, BitVec.add_comm, BitVec.add_comm _ (_ - _), BitVec.sub_add_cancel, BitVec.add_comm]

/-- The telemetry of a run from a reset is right just when every frame after the first
transition makes a transition itself. -/
theorem telemetry_exact_iff (geo : Geometry Q) (cfg : CharacterConfig) (camera : CameraRig R O Q) (p : GameplayPipeline R Q)
    (startPosition : Vec3) (fs : List Frame) :
    (p.reset geo camera startPosition).Exact geo cfg camera fs ↔
      (p.reset geo camera startPosition).KeepsMoving geo cfg camera fs := by
  rw [← framesExact_iff]
  refine ⟨And.left, fun hexact => ⟨hexact, ?_⟩⟩
  rw [← sum_reports hexact]
  exact (BitVec.zero_add _).symm

end Runs

section Example
/-- Exact for the inputs below; there is no camera. -/
def plane : Geometry Unit := ⟨fun x => x, (), fun q _ _ => q⟩

def noCamera : CameraRig Unit Unit Unit := ⟨fun r _ => r, fun r _ _ _ _ => r, fun r _ => ((), r), id⟩

def standing : GameplayPipeline Unit Unit := ⟨{}, .reset plane ⟨0, 0, 0⟩, ()⟩

def forward : Frame := (⟨[], (0, 0), (0, 1), ⟨1 / 60, 0⟩⟩, ⟨true, ⟨0, 1, 0⟩, ⟨0, 0, 0⟩, 0, 0⟩)

/-- The second frame of a run at constant input reports the transition of the first again. -/
theorem transition_reported_again : ¬ ∀ (p : GameplayPipeline Unit Unit) (startPosition : Vec3) (fs : List Frame),
    (p.reset plane noCamera startPosition).Exact plane .default noCamera fs := by
  intro hall
  have hsum := (hall standing ⟨0, 0, 0⟩ [forward, forward]).2
  exact absurd hsum (by decide +kernel)

end Example

end GameplayPipeline
end Zpc
