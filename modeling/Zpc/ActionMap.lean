import Mathlib

/-!
# Axis processing

Dead zone, response curve and sensitivity of an input axis. The arithmetic of `f32` is a
parameter: nothing here depends on how it rounds.
-/
namespace Zpc
/-- Single-precision arithmetic, as far as the input system uses it. -/
class FloatArith (F : Type*) extends Add F, Sub F, Mul F, Div F, Neg F, LT F, LE F, OfScientific F where
  decidableLT (x y : F) : Decidable (x < y)
  decidableLE (x y : F) : Decidable (x ≤ y)
  sqrt : F → F
  pow : F → F → F

namespace AxisProcessor
variable {F : Type*} [FloatArith F]

instance decLT (x y : F) : Decidable (x < y) := FloatArith.decidableLT x y

instance decLE (x y : F) : Decidable (x ≤ y) := FloatArith.decidableLE x y

inductive ResponseCurve
  | linear | quadratic | cubic | custom

structure AxisConfig (F : Type*) where
  deadZone : F
  sensitivity : F
  curve : ResponseCurve
  exponent : F
  invert : Bool

structure DualAxisConfig (F : Type*) where
  xConfig : AxisConfig F
  yConfig : AxisConfig F
  radialDeadZone : Bool

namespace AxisConfig
def gamepad : AxisConfig F := ⟨0.15, 1.0, .quadratic, 2.0, false⟩

def mouse (sens : F) : AxisConfig F := ⟨0.0, sens, .linear, 2.0, false⟩

end AxisConfig

namespace DualAxisConfig
def gamepadStick : DualAxisConfig F := ⟨.gamepad, .gamepad, true⟩

def mouseLook : DualAxisConfig F := ⟨.mouse 1.0, .mouse 1.0, false⟩

end DualAxisConfig

def absVal (x : F) : F := if x < 0.0 then -x else x

def sign (x : F) : F := if x < 0.0 then -1.0 else 1.0

def applyDeadZone (raw threshold : F) : F :=
  if threshold ≤ 0.0 then raw
  else if 1.0 ≤ threshold then 0.0
  else if absVal raw < threshold then 0.0
  else sign raw * ((absVal raw - threshold) / (1.0 - threshold))

def applyResponseCurve (value : F) (curve : ResponseCurve) (exponent : F) : F :=
  sign value * match curve with
    | .linear => absVal value
    | .quadratic => absVal value * absVal value
    | .cubic => absVal value * absVal value * absVal value
    | .custom => FloatArith.pow (absVal value) exponent

def shape (value : F) (config : AxisConfig F) : F :=
  let value := applyResponseCurve value config.curve config.exponent * config.sensitivity
  if config.invert then -value else value

def processAxis (raw : F) (config : AxisConfig F) : F := shape (applyDeadZone raw config.deadZone) config

def processDualAxis (rawX rawY : F) (config : DualAxisConfig F) : F × F :=
  if config.radialDeadZone then
    let mag := FloatArith.sqrt (rawX * rawX + rawY * rawY)
    let threshold := config.xConfig.deadZone
    if mag < threshold then (0.0, 0.0)
    else
      let scale := (mag - threshold) / (1.0 - threshold) / mag
      (shape (rawX * scale) config.xConfig, shape (rawY * scale) config.yConfig)
  else (processAxis rawX config.xConfig, processAxis rawY config.yConfig)

end AxisProcessor

end Zpc

/-!
## ActionMap

Bindings of physical inputs to actions, and `update`, which turns the raw input of a frame
into the phases of the actions. Activity is kept per slot, the action id modulo the number
of slots.
-/
namespace Zpc.ActionMap
open AxisProcessor

abbrev kMaxKeys : ℕ := 256

abbrev kMaxMouseButtons : ℕ := 8

abbrev kMaxGamepadButtons : ℕ := 16

abbrev kMaxGamepadAxes : ℕ := 6

abbrev kMaxBindings : ℕ := 128

abbrev kMaxActions : ℕ := 64

abbrev ActionId := BitVec 32

inductive BindingSource
  | keyboardKey | mouseButton | mouseAxis | gamepadButton | gamepadAxis

inductive ActionPhase
  | none | pressed | held | released
  deriving DecidableEq

structure ActionBinding (F : Type*) where
  actionId : ActionId
  source : BindingSource
  sourceCode : BitVec 32
  scale : F

structure RawInputState (F : Type*) where
  keys : Fin kMaxKeys → Bool
  mouseButtons : Fin kMaxMouseButtons → Bool
  mouseDelta : F × F
  gamepadAxes : Fin kMaxGamepadAxes → F
  gamepadButtons : Fin kMaxGamepadButtons → Bool

structure FrameContext (F : Type*) where
  dt : F
  frameNumber : BitVec 64

structure ActionState (F : Type*) where
  id : ActionId
  phase : ActionPhase
  value : F
  heldDuration : F

structure ActionSnapshot (F : Type*) where
  actions : List (ActionState F)
  lookAxis : F × F
  moveAxis : F × F
  frame : FrameContext F

end ActionMap

open ActionMap AxisProcessor

structure ActionMap (F : Type*) where
  bindings : List (ActionBinding F)
  moveAxisConfig : DualAxisConfig F
  lookAxisConfig : DualAxisConfig F
  moveXAxis : Fin kMaxGamepadAxes
  moveYAxis : Fin kMaxGamepadAxes
  lookXAxis : Fin kMaxGamepadAxes
  lookYAxis : Fin kMaxGamepadAxes
  prevActive : Fin kMaxActions → Bool
  heldTime : Fin kMaxActions → F

namespace ActionMap
variable {F : Type*} [FloatArith F]

namespace ActionSnapshot
def empty (ctx : FrameContext F) : ActionSnapshot F := ⟨[], (0.0, 0.0), (0.0, 0.0), ctx⟩

def find (snap : ActionSnapshot F) (id : ActionId) : Option (ActionState F) := snap.actions.find? fun st => st.id == id

def justPressed (snap : ActionSnapshot F) (id : ActionId) : Bool := match snap.find id with
  | some st => st.phase == .pressed
  | none => false

def isActive (snap : ActionSnapshot F) (id : ActionId) : Bool := match snap.find id with
  | some st => st.phase == .pressed || st.phase == .held
  | none => false

def addAction (snap : ActionSnapshot F) (st : ActionState F) : ActionSnapshot F :=
  if kMaxActions ≤ snap.actions.length then snap else { snap with actions := snap.actions ++ [st] }

/-- The phase that a snapshot reports of an action. -/
def phase (snap : ActionSnapshot F) (id : ActionId) : ActionPhase := match snap.find id with
  | none => .none
  | some st => st.phase

end ActionSnapshot

def create : ActionMap F where
  bindings := []
  moveAxisConfig := .gamepadStick
  lookAxisConfig := .mouseLook
  moveXAxis := 0
  moveYAxis := 1
  lookXAxis := 2
  lookYAxis := 3
  prevActive _ := false
  heldTime _ := 0.0

def addBinding (m : ActionMap F) (binding : ActionBinding F) : ActionMap F :=
  if kMaxBindings ≤ m.bindings.length then m else { m with bindings := m.bindings ++ [binding] }

def removeBindings (m : ActionMap F) (id : ActionId) : ActionMap F :=
  { m with bindings := m.bindings.filter fun b => b.actionId != id }

/-- The value and the activity of a binding. -/
def resolve (raw : RawInputState F) (b : ActionBinding F) : F × Bool := match b.source with
  | .keyboardKey =>
    if h : b.sourceCode.toNat < kMaxKeys then (if raw.keys ⟨_, h⟩ then 1.0 else 0.0, raw.keys ⟨_, h⟩) else (0.0, false)
  | .mouseButton =>
    if h : b.sourceCode.toNat < kMaxMouseButtons then
      (if raw.mouseButtons ⟨_, h⟩ then 1.0 else 0.0, raw.mouseButtons ⟨_, h⟩)
    else (0.0, false)
  | .gamepadButton =>
    if h : b.sourceCode.toNat < kMaxGamepadButtons then
      (if raw.gamepadButtons ⟨_, h⟩ then 1.0 else 0.0, raw.gamepadButtons ⟨_, h⟩)
    else (0.0, false)
  | .gamepadAxis =>
    if h : b.sourceCode.toNat < kMaxGamepadAxes then
      let rawValue := raw.gamepadAxes ⟨_, h⟩ * b.scale
      (rawValue, decide (rawValue < -0.01) || decide (0.01 < rawValue))
    else (0.0, false)
  | .mouseAxis => (0.0, false)

def bindingActive (raw : RawInputState F) (b : ActionBinding F) : Bool := (resolve raw b).2

def slotOf (id : ActionId) : Fin kMaxActions := ⟨id.toNat % kMaxActions, Nat.mod_lt _ (by decide)⟩

/-- `currentActive` and `currentValue`. -/
structure Current (F : Type*) where
  active : Fin kMaxActions → Bool
  value : Fin kMaxActions → F

def Current.bind (raw : RawInputState F) (cur : Current F) (b : ActionBinding F) : Current F :=
  let slot := slotOf b.actionId
  let scaled := (resolve raw b).1 * b.scale
  ⟨if bindingActive raw b then Function.update cur.active slot true else cur.active,
    if absVal (cur.value slot) < absVal scaled then Function.update cur.value slot scaled else cur.value⟩

def current (m : ActionMap F) (raw : RawInputState F) : Current F :=
  m.bindings.foldl (Current.bind raw) ⟨fun _ => false, fun _ => 0.0⟩

def phaseOf (prev cur : Bool) : ActionPhase := match cur, prev with
  | true, true => .held
  | true, false => .pressed
  | false, true => .released
  | false, false => .none

def report (m : ActionMap F) (cur : Current F) (snap : ActionSnapshot F) (b : ActionBinding F) : ActionSnapshot F :=
  let slot := slotOf b.actionId
  let id := b.actionId
  if (snap.find id).isSome then snap
  else match phaseOf (m.prevActive slot) (cur.active slot) with
    | .none => snap
    | .held => snap.addAction ⟨id, .held, cur.value slot, m.heldTime slot + snap.frame.dt⟩
    | .pressed => snap.addAction ⟨id, .pressed, cur.value slot, 0.0⟩
    | .released => snap.addAction ⟨id, .released, cur.value slot, m.heldTime slot⟩

def update (m : ActionMap F) (raw : RawInputState F) (frame : FrameContext F) : ActionSnapshot F × ActionMap F :=
  let cur := m.current raw
  let snap := m.bindings.foldl (m.report cur) (.empty frame)
  ({ snap with
      moveAxis := processDualAxis (raw.gamepadAxes m.moveXAxis) (raw.gamepadAxes m.moveYAxis) m.moveAxisConfig
      lookAxis := (raw.mouseDelta.1 * m.lookAxisConfig.xConfig.sensitivity + raw.gamepadAxes m.lookXAxis,
        raw.mouseDelta.2 * m.lookAxisConfig.yConfig.sensitivity + raw.gamepadAxes m.lookYAxis) },
    { m with
      prevActive := cur.active
      heldTime := fun i => if cur.active i then (if m.prevActive i then m.heldTime i + frame.dt else 0.0) else 0.0 })

abbrev Frame (F : Type*) := RawInputState F × FrameContext F

/-- The snapshots of successive frames. -/
def run (m : ActionMap F) : List (Frame F) → List (ActionSnapshot F)
  | [] => []
  | f :: fs => (m.update f.1 f.2).1 :: run (m.update f.1 f.2).2 fs

end ActionMap

end Zpc
