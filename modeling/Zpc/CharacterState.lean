import Mathlib

/-!
# CharacterStateMachine

The locomotion of a character, with times, speeds and positions as exact rationals. Square
roots and the turning of the rotation are parameters.
-/
namespace Zpc.Character
inductive LocomotionState
  | idle | walk | run | sprint | jumpAscend | jumpApex | fall | land
  deriving DecidableEq

structure Vec3 where
  x : ℚ
  y : ℚ
  z : ℚ

structure GroundInfo where
  grounded : Bool
  normal : Vec3
  point : Vec3
  distance : ℚ
  slope : ℚ

structure MovementIntent where
  direction : Vec3
  magnitude : ℚ
  wantsJump : Bool
  wantsSprint : Bool

def MovementIntent.hasMovement (intent : MovementIntent) : Bool := decide (1 / 100 < intent.magnitude)

structure CharacterConfig where
  walkSpeed : ℚ
  runSpeed : ℚ
  sprintSpeed : ℚ
  acceleration : ℚ
  deceleration : ℚ
  airAcceleration : ℚ
  turnSmoothing : ℚ
  gravity : ℚ
  jumpVelocity : ℚ
  jumpCutMultiplier : ℚ
  coyoteTime : ℚ
  jumpBufferTime : ℚ
  landRecoveryTime : ℚ
  apexThreshold : ℚ
  walkThreshold : ℚ

/-- The defaults of the members. -/
def CharacterConfig.default : CharacterConfig where
  walkSpeed := 2
  runSpeed := 5
  sprintSpeed := 8
  acceleration := 20
  deceleration := 15
  airAcceleration := 5
  turnSmoothing := 10
  gravity := -20
  jumpVelocity := 10
  jumpCutMultiplier := 1 / 2
  coyoteTime := 1 / 10
  jumpBufferTime := 1 / 10
  landRecoveryTime := 1 / 10
  apexThreshold := 1
  walkThreshold := 1 / 2

/-- What the state machine takes from elsewhere: the square root, and the rotation turned
towards a direction, smoothed over a product of rate and time. -/
structure Geometry (Q : Type*) where
  sqrt : ℚ → ℚ
  identity : Q
  turn : Q → Vec3 → ℚ → Q

structure Machine (Q : Type*) where
  position : Vec3
  velocity : Vec3
  rotation : Q
  currentState : LocomotionState
  previousState : LocomotionState
  timeInState : ℚ
  transitionCount : BitVec 32
  coyoteTimer : ℚ
  jumpBufferTimer : ℚ
  jumpHeld : Bool
  hasJumped : Bool

/-- The animation tags of a frame. -/
structure AnimTags where
  grounded : Bool
  airborne : Bool
  jumpRising : Bool
  jumpFalling : Bool
  landing : Bool
  accelerating : Bool
  decelerating : Bool

structure CharacterSnapshot (Q : Type*) where
  position : Vec3
  velocity : Vec3
  rotation : Q
  state : LocomotionState
  previousState : LocomotionState
  timeInState : ℚ
  stateTransitionCount : BitVec 32
  animTags : AnimTags
  ground : GroundInfo
  speed : ℚ

namespace Machine
variable {Q : Type*} (geo : Geometry Q) (cfg : CharacterConfig)

def reset (pos : Vec3) : Machine Q where
  position := pos
  velocity := ⟨0, 0, 0⟩
  rotation := geo.identity
  currentState := .idle
  previousState := .idle
  timeInState := 0
  transitionCount := 0
  coyoteTimer := 0
  jumpBufferTimer := 0
  jumpHeld := false
  hasJumped := false

def transition (s : Machine Q) (next : LocomotionState) : Machine Q :=
  if next = s.currentState then s
  else { s with
    previousState := s.currentState
    currentState := next
    timeInState := 0
    transitionCount := s.transitionCount + 1 }

def targetSpeed (intent : MovementIntent) : ℚ :=
  if !intent.hasMovement then 0
  else if intent.wantsSprint then cfg.sprintSpeed * intent.magnitude
  else if cfg.walkThreshold < intent.magnitude then cfg.runSpeed * intent.magnitude
  else cfg.walkSpeed * intent.magnitude

/-- Coyote time and jump buffer, before the state is looked at. -/
def track (s : Machine Q) (intent : MovementIntent) (ground : GroundInfo) (dt : ℚ) : Machine Q :=
  let buffer := s.jumpBufferTimer - dt
  { s with
    timeInState := s.timeInState + dt
    coyoteTimer := if ground.grounded then 0 else s.coyoteTimer + dt
    hasJumped := if ground.grounded then false else s.hasJumped
    jumpBufferTimer := if intent.wantsJump then cfg.jumpBufferTime else if buffer < 0 then 0 else buffer
    jumpHeld := intent.wantsJump }

def startJump (s : Machine Q) : Machine Q :=
  { s with velocity := { s.velocity with y := cfg.jumpVelocity }, hasJumped := true, jumpBufferTimer := 0 }.transition
    .jumpAscend

/-- The state transitions. -/
def switch (s : Machine Q) (intent : MovementIntent) (ground : GroundInfo) : Machine Q :=
  let canCoyoteJump := decide (s.coyoteTimer ≤ cfg.coyoteTime) && !s.hasJumped
  let wantsJumpNow := decide (0 < s.jumpBufferTimer)
  match s.currentState with
  | .idle | .walk | .run | .sprint =>
    if !ground.grounded && decide (cfg.coyoteTime < s.coyoteTimer) then s.transition .fall
    else if wantsJumpNow && canCoyoteJump then s.startJump cfg
    else if !intent.hasMovement then s.transition .idle
    else if intent.wantsSprint then s.transition .sprint
    else if cfg.walkThreshold < intent.magnitude then s.transition .run
    else s.transition .walk
  | .jumpAscend =>
    let s := if !s.jumpHeld && decide (0 < s.velocity.y) then
        { s with velocity := { s.velocity with y := s.velocity.y * cfg.jumpCutMultiplier } }
      else s
    let s := if s.velocity.y ≤ cfg.apexThreshold ∧ -cfg.apexThreshold ≤ s.velocity.y then s.transition .jumpApex
      else if s.velocity.y < -cfg.apexThreshold then s.transition .fall
      else s
    if ground.grounded && decide (5 / 100 < s.timeInState) then s.transition .land else s
  | .jumpApex =>
    let s := if s.velocity.y < -cfg.apexThreshold then s.transition .fall else s
    if ground.grounded && decide (2 / 100 < s.timeInState) then s.transition .land else s
  | .fall =>
    if wantsJumpNow && canCoyoteJump then s.startJump cfg
    else if ground.grounded then s.transition .land
    else s
  | .land =>
    if cfg.landRecoveryTime ≤ s.timeInState then
      if wantsJumpNow then s.startJump cfg
      else if intent.hasMovement then s.transition (if cfg.walkThreshold < intent.magnitude then .run else .walk)
      else s.transition .idle
    else s

/-- `isGrounded`, by the state alone. -/
def isGrounded (s : Machine Q) : Bool :=
  s.currentState ≠ .jumpAscend ∧ s.currentState ≠ .jumpApex ∧ s.currentState ≠ .fall

def horizontalSpeed (x z : ℚ) : ℚ := geo.sqrt (x * x + z * z)

/-- The horizontal velocity. -/
def drive (s : Machine Q) (intent : MovementIntent) (dt : ℚ) : Machine Q :=
  let accel := if s.isGrounded then cfg.acceleration else cfg.airAcceleration
  let maxSpeed := targetSpeed cfg intent
  let horizSpeed := horizontalSpeed geo s.velocity.x s.velocity.z
  if intent.hasMovement then
    let x := s.velocity.x + intent.direction.x * accel * dt
    let z := s.velocity.z + intent.direction.z * accel * dt
    let newSpeed := horizontalSpeed geo x z
    let scale := if maxSpeed < newSpeed ∧ 1 / 1000000 < newSpeed then maxSpeed / newSpeed else 1
    { s with velocity := ⟨x * scale, s.velocity.y, z * scale⟩ }
  else if s.isGrounded ∧ 1 / 1000000 < horizSpeed then
    let reduction := cfg.deceleration * dt
    let scale := if horizSpeed ≤ reduction then 0 else (horizSpeed - reduction) / horizSpeed
    { s with velocity := ⟨s.velocity.x * scale, s.velocity.y, s.velocity.z * scale⟩ }
  else s

/-- Gravity, or the snap to the ground. -/
def dropDown (s : Machine Q) (ground : GroundInfo) (dt : ℚ) : Machine Q :=
  if !ground.grounded ∨ s.currentState = .jumpAscend ∨ s.currentState = .jumpApex then
    { s with velocity := { s.velocity with y := s.velocity.y + cfg.gravity * dt } }
  else if s.velocity.y < 0 then { s with velocity := { s.velocity with y := 0 } }
  else s

def integrate (s : Machine Q) (dt : ℚ) : Machine Q :=
  { s with position := ⟨s.position.x + s.velocity.x * dt, s.position.y + s.velocity.y * dt,
      s.position.z + s.velocity.z * dt⟩ }

/-- The rotation follows the direction of the movement. -/
def rotate (s : Machine Q) (intent : MovementIntent) (dt : ℚ) : Machine Q :=
  let len := horizontalSpeed geo intent.direction.x intent.direction.z
  let lookDir : Vec3 := ⟨intent.direction.x / len, 0, intent.direction.z / len⟩
  if intent.hasMovement ∧ s.isGrounded ∧ 1 / 1000000 < lookDir.x * lookDir.x + lookDir.z * lookDir.z then
    { s with rotation := geo.turn s.rotation lookDir (cfg.turnSmoothing * dt) }
  else s

def snapshot (s : Machine Q) (intent : MovementIntent) (ground : GroundInfo) : CharacterSnapshot Q :=
  let finalHorizSpeed := horizontalSpeed geo s.velocity.x s.velocity.z
  { position := s.position
    velocity := s.velocity
    rotation := s.rotation
    state := s.currentState
    previousState := s.previousState
    timeInState := s.timeInState
    stateTransitionCount := s.transitionCount
    animTags := {
      grounded := ground.grounded
      airborne := !ground.grounded
      jumpRising := s.currentState = .jumpAscend
      jumpFalling := s.currentState = .fall
      landing := s.currentState = .land
      accelerating := intent.hasMovement && decide (finalHorizSpeed < targetSpeed cfg intent - 1 / 10)
      decelerating := !intent.hasMovement && decide (1 / 10 < finalHorizSpeed) }
    ground
    speed := finalHorizSpeed }

def update (s : Machine Q) (intent : MovementIntent) (ground : GroundInfo) (dt : ℚ) :
    Machine Q × CharacterSnapshot Q :=
  let s := ((s.track cfg intent ground dt).switch cfg intent ground).drive geo cfg intent dt
  let s := ((s.dropDown cfg ground dt).integrate dt).rotate geo cfg intent dt
  (s, s.snapshot geo cfg intent ground)

end Machine

end Zpc.Character
