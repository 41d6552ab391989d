import Mathlib.Algebra.BigOperators.Group.Finset.Basic

/-!
# Shared and weak pointers

`SharedPtr`, `WeakPtr` and `SharedControlBlock` of `ZpcResource.hpp`. An operation is a
change of the state and then the instructions of a release, which may destroy objects
and release their members in turn. An object and its control block have one number, and
no number is used again. Any access to a variable or a block that is gone is a fault.
The pointer casts copy or move as the constructors do.
-/
namespace Zpc.SharedPtr
inductive Kind
  | strong
  | weak
  deriving DecidableEq

inductive Place
  | var (n : ℕ)
  | member (o i : ℕ)
  deriving DecidableEq

def Place.isVar : Place → Bool
  | var _ => true
  | member _ _ => false

/-- The variable of a `SharedPtr` or of a `WeakPtr`. -/
structure Loc where
  kind : Kind
  place : Place
  deriving DecidableEq

/-- The flag is not in the source: the count of the pointer is given back, and what it holds not yet cleared. -/
structure Ptr where
  ptr : Option ℕ := none
  control : Option ℕ := none
  given : Bool := false
  deriving DecidableEq

structure SharedControlBlock where
  strong : ℕ := 1
  weak : ℕ := 1
  ptr : Option ℕ
  deriving DecidableEq

/-- The variables there are with their values, the blocks not deleted, the kinds of each object's members, and the
objects destroyed and blocks deleted so far. -/
structure State where
  dom : Finset Loc
  value : Loc → Ptr
  blocks : ℕ → Option SharedControlBlock
  layout : ℕ → List Kind
  next : ℕ
  destroyed : List ℕ
  deleted : List ℕ

def State.init : State := ⟨∅, fun _ => {}, fun _ => none, fun _ => [], 0, [], []⟩

inductive Err
  | fault
  | fuel
  deriving DecidableEq

/-- `finish` is what follows the deleter in `destroy_object` and `release_strong`; `release` is `release_`, whose end
is `clear`; `drop` ends the life of a variable. -/
inductive Instr
  | releaseStrong (b : ℕ)
  | releaseWeak (b : ℕ)
  | finish (b : ℕ)
  | release (l : Loc)
  | clear (l : Loc)
  | drop (l : Loc)
  deriving DecidableEq

namespace State
variable (σ : State)

def read (l : Loc) : Except Err Ptr := if l ∈ σ.dom then .ok (σ.value l) else .error .fault

def write (l : Loc) (p : Ptr) : State := {σ with value := Function.update σ.value l p}

def declare (l : Loc) (p : Ptr) : State :=
  {σ with dom := insert l σ.dom, value := Function.update σ.value l p}

def block (b : ℕ) : Except Err SharedControlBlock :=
  match σ.blocks b with
  | some blk => .ok blk
  | none => .error .fault

def setBlock (b : ℕ) (blk : SharedControlBlock) : State :=
  {σ with blocks := Function.update σ.blocks b (some blk)}

def memberLocs (o : ℕ) : List Loc := (σ.layout o).zipIdx.map fun m => ⟨m.1, .member o m.2⟩

/-! ## Releasing -/

/-- The members are destroyed in the reverse order of their declaration. -/
def destructors (o : ℕ) : List Instr := (σ.memberLocs o).reverse.flatMap fun l => [.release l, .drop l]

def releaseWeak (b : ℕ) (blk : SharedControlBlock) : State :=
  if blk.weak = 1 then {σ with blocks := Function.update σ.blocks b none, deleted := σ.deleted ++ [b]}
  else σ.setBlock b {blk with weak := blk.weak - 1}

/-- One instruction, with those that come before the rest. -/
def step : Instr → Except Err (List Instr × State)
  | .releaseStrong b => do
    let blk ← σ.block b
    if blk.strong = 1 then
      match blk.ptr with
      | some o => return (σ.destructors o ++ [.finish b],
          {σ.setBlock b {blk with strong := 0} with destroyed := σ.destroyed ++ [o]})
      | none => return ([.releaseWeak b], σ.setBlock b {blk with strong := 0})
    else return ([], σ.setBlock b {blk with strong := blk.strong - 1})
  | .releaseWeak b => do
    let blk ← σ.block b
    return ([], σ.releaseWeak b blk)
  | .finish b => do
    let blk ← σ.block b
    return ([], σ.releaseWeak b {blk with ptr := none})
  | .release l => do
    let p ← σ.read l
    match p.control with
    | some b =>
      let count := match l.kind with
        | .strong => .releaseStrong b
        | .weak => .releaseWeak b
      return ([count, .clear l], σ.write l {p with given := true})
    | none => return ([], σ)
  | .clear l => do
    let _ ← σ.read l
    return ([], σ.write l {})
  | .drop l => do
    let _ ← σ.read l
    return ([], {σ with dom := σ.dom.erase l})

/-- At most `fuel` instructions. -/
def exec : ℕ → List Instr → State → Except Err State
  | _, [], σ => .ok σ
  | 0, _ :: _, _ => .error .fuel
  | n + 1, instr :: rest, σ => do
    let (pushed, σ') ← σ.step instr
    exec n (pushed ++ rest) σ'

/-! ## Operations -/

/-- `add_strong` or `add_weak`, unless there is no block. -/
def acquire (k : Kind) : Option ℕ → Except Err State
  | none => return σ
  | some b => do
    let blk ← σ.block b
    return σ.setBlock b (match k with
      | .strong => {blk with strong := blk.strong + 1}
      | .weak => {blk with weak := blk.weak + 1})

/-- Also the observer of an owner. -/
def copyConstruct (l src : Loc) : Except Err State := do
  let p ← σ.read src
  let σ' ← σ.acquire l.kind p.control
  return σ'.declare l {ptr := p.ptr, control := p.control}

def moveConstruct (l src : Loc) : Except Err State := do
  let p ← σ.read src
  return (σ.declare l p).write src {}

/-- The owner made of an observer. -/
def lock (l w : Loc) : Except Err State := do
  let p ← σ.read w
  match p.control with
  | none => return σ.declare l {}
  | some b => do
    let blk ← σ.block b
    if blk.strong ≠ 0 then
      return (σ.setBlock b {blk with strong := blk.strong + 1}).declare l {ptr := p.ptr, control := some b}
    else return σ.declare l {}

/-- A new object with empty members, and its owner. -/
def make (l : Loc) (layout : List Kind) : State :=
  let σ' : State := {σ with
    layout := Function.update σ.layout σ.next layout
    blocks := Function.update σ.blocks σ.next (some {ptr := some σ.next})
    next := σ.next + 1}
  let σ' : State := {σ' with
    dom := σ'.dom ∪ (σ'.memberLocs σ.next).toFinset
    value := fun l => if l ∈ σ'.memberLocs σ.next then {} else σ'.value l}
  σ'.declare l {ptr := some σ.next, control := some σ.next}

def swap (l l' : Loc) : Except Err State := do
  let p ← σ.read l
  let p' ← σ.read l'
  return (σ.write l p').write l' p

def moveFrom (l src : Loc) : Except Err State := do
  let p ← σ.read src
  let _ ← σ.read l
  return (σ.write l p).write src {}

end State

/-- A temporary has the name of the local variable. -/
inductive Op
  | construct (l : Loc)
  | make (l : Loc) (layout : List Kind)
  | copyConstruct (l src : Loc)
  | moveConstruct (l src : Loc)
  | lock (l w : Loc)
  | destroy (l : Loc)
  | copyAssign (l src tmp : Loc)
  | moveAssign (l src : Loc)
  | reset (l : Loc)
  | resetTo (l : Loc) (layout : List Kind) (tmp : Loc)
  | swap (l l' : Loc)

/-- An operation within a number of instructions. -/
def State.perform (fuel : ℕ) (σ : State) : Op → Except Err State
  | .construct l => return σ.declare l {}
  | .make l layout => return σ.make l layout
  | .copyConstruct l src => σ.copyConstruct l src
  | .moveConstruct l src => σ.moveConstruct l src
  | .lock l w => σ.lock l w
  | .destroy l => State.exec fuel [.release l, .drop l] σ
  | .copyAssign l src tmp =>
    if l = src then return σ
    else do
      let σ ← σ.copyConstruct tmp src
      let σ ← σ.swap l tmp
      State.exec fuel [.release tmp, .drop tmp] σ
  | .moveAssign l src =>
    if l = src then return σ
    else do
      let σ ← State.exec fuel [.release l] σ
      σ.moveFrom l src
  | .reset l => State.exec fuel [.release l] σ
  | .resetTo l layout tmp => do
    let σ ← (σ.make tmp layout).swap l tmp
    State.exec fuel [.release tmp, .drop tmp] σ
  | .swap l l' => σ.swap l l'

/-- What a program keeps to: its operands exist and fit, and its new variables are new. -/
def Op.Proper (σ : State) : Op → Prop
  | construct l => l.place.isVar ∧ l ∉ σ.dom
  | make l _ => l.place.isVar ∧ l ∉ σ.dom ∧ l.kind = .strong
  | copyConstruct l src => l.place.isVar ∧ l ∉ σ.dom ∧ src ∈ σ.dom ∧ (src.kind = l.kind ∨ src.kind = .strong)
  | moveConstruct l src => l.place.isVar ∧ l ∉ σ.dom ∧ src ∈ σ.dom ∧ src.kind = l.kind
  | lock l w => l.place.isVar ∧ l ∉ σ.dom ∧ l.kind = .strong ∧ w ∈ σ.dom ∧ w.kind = .weak
  | destroy l => l.place.isVar ∧ l ∈ σ.dom
  | copyAssign l src tmp =>
    l ∈ σ.dom ∧ src ∈ σ.dom ∧ src.kind = l.kind ∧ tmp.place.isVar ∧ tmp ∉ σ.dom ∧ tmp.kind = l.kind
  | moveAssign l src => l ∈ σ.dom ∧ src ∈ σ.dom ∧ src.kind = l.kind
  | reset l => l ∈ σ.dom
  | resetTo l _ tmp => l ∈ σ.dom ∧ l.kind = .strong ∧ tmp.place.isVar ∧ tmp ∉ σ.dom ∧ tmp.kind = .strong
  | swap l l' => l ∈ σ.dom ∧ l' ∈ σ.dom ∧ l'.kind = l.kind

end Zpc.SharedPtr
