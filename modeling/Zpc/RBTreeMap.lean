import Mathlib
import Zpc.RedBlackTree

/-!
# The red-black tree map

`RBTreeMap` of `RBTreeMap.hpp` over a heap of nodes. The comparator is the order of a linear order on the keys, and
`==` is equality. A loop or recursion gets fuel, of which there is always enough. `new` yields an address not used
before; after `delete` the parent field of the freed node reads as `stale` says, given the address and the old value,
and no other freed field is read. The traversals and `removeAll` are left out.
-/
namespace Zpc
open RedBlackTree (Color Side)

namespace RBTreeMap
abbrev Ptr := ℕ

def null : Ptr := 0

def header : Ptr := 1

structure Node (K V : Type*) where
  color : Color := .red
  parent : Ptr := null
  left : Ptr := null
  right : Ptr := null
  first : K
  second : V

inductive Direction
  | left | root | right
  deriving DecidableEq

end RBTreeMap

open RBTreeMap in
/-- The header is fixed, `next` is the address of the next node. -/
structure RBTreeMap (K V : Type*) where
  heap : Ptr → Node K V
  root : Ptr
  cnt : ℕ
  next : Ptr

namespace RBTreeMap
variable {K V : Type*}

section Fields
def color (m : RBTreeMap K V) (p : Ptr) : Color := (m.heap p).color
def parent (m : RBTreeMap K V) (p : Ptr) : Ptr := (m.heap p).parent
def left (m : RBTreeMap K V) (p : Ptr) : Ptr := (m.heap p).left
def right (m : RBTreeMap K V) (p : Ptr) : Ptr := (m.heap p).right
def first (m : RBTreeMap K V) (p : Ptr) : K := (m.heap p).first
def second (m : RBTreeMap K V) (p : Ptr) : V := (m.heap p).second

def write (m : RBTreeMap K V) (p : Ptr) (g : Node K V → Node K V) : RBTreeMap K V :=
  {m with heap := Function.update m.heap p (g (m.heap p))}

def setColor (m : RBTreeMap K V) (p : Ptr) (c : Color) : RBTreeMap K V := m.write p fun n => {n with color := c}
def setParent (m : RBTreeMap K V) (p q : Ptr) : RBTreeMap K V := m.write p fun n => {n with parent := q}
def setLeft (m : RBTreeMap K V) (p q : Ptr) : RBTreeMap K V := m.write p fun n => {n with left := q}
def setRight (m : RBTreeMap K V) (p q : Ptr) : RBTreeMap K V := m.write p fun n => {n with right := q}
def setSecond (m : RBTreeMap K V) (p : Ptr) (v : V) : RBTreeMap K V := m.write p fun n => {n with second := v}

/-- `this->root = this->header->parent = node`. -/
def setRoot (m : RBTreeMap K V) (node : Ptr) : RBTreeMap K V := {m.setParent header node with root := node}

variable (m : RBTreeMap K V) (p q x : Ptr) (c : Color) (v : V)

theorem write_apply {A : Type*} (g : Node K V → Node K V) (field : Node K V → A) :
    field ((m.write p g).heap x) = if x = p then field (g (m.heap x)) else field (m.heap x) := by
  unfold write
  split_ifs with h
  · simp [h]
  · simp [h]

theorem write_same {A : Type*} (g : Node K V → Node K V) (field : Node K V → A) (h : ∀ n, field (g n) = field n) :
    field ((m.write p g).heap x) = field (m.heap x) := by
  have hw := write_apply m p x g field
  rwa [h, ite_self] at hw

@[simp] theorem color_setColor : (m.setColor p c).color x = if x = p then c else m.color x := write_apply ..
@[simp] theorem color_setParent : (m.setParent p q).color x = m.color x := write_same _ _ _ _ (·.color) fun _ => rfl
@[simp] theorem color_setLeft : (m.setLeft p q).color x = m.color x := write_same _ _ _ _ (·.color) fun _ => rfl
@[simp] theorem color_setRight : (m.setRight p q).color x = m.color x := write_same _ _ _ _ (·.color) fun _ => rfl
@[simp] theorem color_setSecond : (m.setSecond p v).color x = m.color x := write_same _ _ _ _ (·.color) fun _ => rfl
@[simp] theorem parent_setColor : (m.setColor p c).parent x = m.parent x := write_same _ _ _ _ (·.parent) fun _ => rfl
@[simp] theorem parent_setParent : (m.setParent p q).parent x = if x = p then q else m.parent x := write_apply ..
@[simp] theorem parent_setLeft : (m.setLeft p q).parent x = m.parent x := write_same _ _ _ _ (·.parent) fun _ => rfl
@[simp] theorem parent_setRight : (m.setRight p q).parent x = m.parent x := write_same _ _ _ _ (·.parent) fun _ => rfl
@[simp] theorem parent_setSecond : (m.setSecond p v).parent x = m.parent x := write_same _ _ _ _ (·.parent) fun _ => rfl
@[simp] theorem left_setColor : (m.setColor p c).left x = m.left x := write_same _ _ _ _ (·.left) fun _ => rfl
@[simp] theorem left_setParent : (m.setParent p q).left x = m.left x := write_same _ _ _ _ (·.left) fun _ => rfl
@[simp] theorem left_setLeft : (m.setLeft p q).left x = if x = p then q else m.left x := write_apply ..
@[simp] theorem left_setRight : (m.setRight p q).left x = m.left x := write_same _ _ _ _ (·.left) fun _ => rfl
@[simp] theorem left_setSecond : (m.setSecond p v).left x = m.left x := write_same _ _ _ _ (·.left) fun _ => rfl
@[simp] theorem right_setColor : (m.setColor p c).right x = m.right x := write_same _ _ _ _ (·.right) fun _ => rfl
@[simp] theorem right_setParent : (m.setParent p q).right x = m.right x := write_same _ _ _ _ (·.right) fun _ => rfl
@[simp] theorem right_setLeft : (m.setLeft p q).right x = m.right x := write_same _ _ _ _ (·.right) fun _ => rfl
@[simp] theorem right_setRight : (m.setRight p q).right x = if x = p then q else m.right x := write_apply ..
@[simp] theorem right_setSecond : (m.setSecond p v).right x = m.right x := write_same _ _ _ _ (·.right) fun _ => rfl
@[simp] theorem first_setColor : (m.setColor p c).first = m.first := funext fun _ => write_same _ _ _ _ (·.first) fun _ => rfl
@[simp] theorem first_setParent : (m.setParent p q).first = m.first := funext fun _ => write_same _ _ _ _ (·.first) fun _ => rfl
@[simp] theorem first_setLeft : (m.setLeft p q).first = m.first := funext fun _ => write_same _ _ _ _ (·.first) fun _ => rfl
@[simp] theorem first_setRight : (m.setRight p q).first = m.first := funext fun _ => write_same _ _ _ _ (·.first) fun _ => rfl
@[simp] theorem first_setSecond : (m.setSecond p v).first = m.first := funext fun _ => write_same _ _ _ _ (·.first) fun _ => rfl
@[simp] theorem second_setColor : (m.setColor p c).second = m.second := funext fun _ => write_same _ _ _ _ (·.second) fun _ => rfl
@[simp] theorem second_setParent : (m.setParent p q).second = m.second := funext fun _ => write_same _ _ _ _ (·.second) fun _ => rfl
@[simp] theorem second_setLeft : (m.setLeft p q).second = m.second := funext fun _ => write_same _ _ _ _ (·.second) fun _ => rfl
@[simp] theorem second_setRight : (m.setRight p q).second = m.second := funext fun _ => write_same _ _ _ _ (·.second) fun _ => rfl
@[simp] theorem second_setSecond : (m.setSecond p v).second x = if x = p then v else m.second x := write_apply ..
@[simp] theorem root_setColor : (m.setColor p c).root = m.root := rfl
@[simp] theorem root_setParent : (m.setParent p q).root = m.root := rfl
@[simp] theorem root_setLeft : (m.setLeft p q).root = m.root := rfl
@[simp] theorem root_setRight : (m.setRight p q).root = m.root := rfl
@[simp] theorem root_setSecond : (m.setSecond p v).root = m.root := rfl
@[simp] theorem root_setRoot : (m.setRoot p).root = p := rfl
@[simp] theorem first_setRoot : (m.setRoot p).first = m.first := m.first_setParent header p
@[simp] theorem second_setRoot : (m.setRoot p).second = m.second := m.second_setParent header p
@[simp] theorem color_setRoot : (m.setRoot p).color x = m.color x := m.color_setParent header p x
@[simp] theorem parent_setRoot : (m.setRoot p).parent x = if x = header then p else m.parent x :=
  m.parent_setParent header p x
@[simp] theorem left_setRoot : (m.setRoot p).left x = m.left x := m.left_setParent header p x
@[simp] theorem right_setRoot : (m.setRoot p).right x = m.right x := m.right_setParent header p x

end Fields

section Links
def isRoot (m : RBTreeMap K V) (node : Ptr) : Prop := m.root = node

instance (m : RBTreeMap K V) (node : Ptr) : Decidable (m.isRoot node) := inferInstanceAs (Decidable (m.root = node))

def getDirection (m : RBTreeMap K V) (node : Ptr) : Direction :=
  if ¬ m.isRoot node then if node = m.left (m.parent node) then .left else .right
  else .root

def getSibling (m : RBTreeMap K V) (node : Ptr) : Ptr :=
  if m.getDirection node = .left then m.right (m.parent node) else m.left (m.parent node)

def hasSibling (m : RBTreeMap K V) (node : Ptr) : Prop := ¬ m.isRoot node ∧ m.getSibling node ≠ null

def getUncle (m : RBTreeMap K V) (node : Ptr) : Ptr := m.getSibling (m.parent node)

def hasUncle (m : RBTreeMap K V) (node : Ptr) : Prop := ¬ m.isRoot node ∧ m.hasSibling (m.parent node)

instance (m : RBTreeMap K V) (node : Ptr) : Decidable (m.hasUncle node) := by
  unfold hasUncle hasSibling
  infer_instance

def getGrandParent (m : RBTreeMap K V) (node : Ptr) : Ptr := m.parent (m.parent node)

/-- A color read through a pointer that may be null. -/
def isBlackOrNull (m : RBTreeMap K V) (node : Ptr) : Prop := node = null ∨ m.color node = .black

instance (m : RBTreeMap K V) (node : Ptr) : Decidable (m.isBlackOrNull node) := by
  unfold isBlackOrNull
  infer_instance

def maintainLeft (m : RBTreeMap K V) (node : Ptr) : RBTreeMap K V :=
  if m.left node ≠ null then m.setParent (m.left node) node else m

def maintainRight (m : RBTreeMap K V) (node : Ptr) : RBTreeMap K V :=
  if m.right node ≠ null then m.setParent (m.right node) node else m

def maintainRelationship (m : RBTreeMap K V) (node : Ptr) : RBTreeMap K V := (m.maintainLeft node).maintainRight node

/-- The switch on the direction of a node that another one takes the place of below its parent. -/
def relink (m : RBTreeMap K V) (direction : Direction) (parent successor : Ptr) : RBTreeMap K V :=
  match direction with
  | .root => m.setRoot successor
  | .left => m.setLeft parent successor
  | .right => m.setRight parent successor

def rotateLeft (m : RBTreeMap K V) (node : Ptr) : RBTreeMap K V :=
  let parent := m.parent node
  let direction := m.getDirection node
  let successor := m.right node
  let m := m.setRight node (m.left successor)
  let m := m.setLeft successor node
  let m := m.maintainRelationship node
  let m := m.maintainRelationship successor
  let m := m.relink direction parent successor
  m.setParent successor parent

def rotateRight (m : RBTreeMap K V) (node : Ptr) : RBTreeMap K V :=
  let parent := m.parent node
  let direction := m.getDirection node
  let successor := m.left node
  let m := m.setLeft node (m.right successor)
  let m := m.setRight successor node
  let m := m.maintainRelationship node
  let m := m.maintainRelationship successor
  let m := m.relink direction parent successor
  m.setParent successor parent

def rotateSameDirection (m : RBTreeMap K V) (node : Ptr) (direction : Direction) : RBTreeMap K V :=
  if direction = .left then m.rotateLeft node else m.rotateRight node

def rotateOppositeDirection (m : RBTreeMap K V) (node : Ptr) (direction : Direction) : RBTreeMap K V :=
  if direction = .left then m.rotateRight node else m.rotateLeft node

end Links

section Insert
/-- Case 5 of `maintainAfterInsert`: the map and the node that case 6 goes on with. -/
def straighten (m : RBTreeMap K V) (node : Ptr) : RBTreeMap K V × Ptr :=
  if m.getDirection node ≠ m.getDirection (m.parent node) then
    (if m.getDirection node = .left then m.rotateRight (m.parent node) else m.rotateLeft (m.parent node), m.parent node)
  else (m, node)

/-- Case 6 of `maintainAfterInsert`. -/
def rotateGrandParent (m : RBTreeMap K V) (node : Ptr) : RBTreeMap K V :=
  let m := if m.getDirection (m.parent node) = .left then m.rotateRight (m.getGrandParent node)
    else m.rotateLeft (m.getGrandParent node)
  let m := m.setColor (m.parent node) .black
  m.setColor (m.getSibling node) .red

/-- Case 4 of `maintainAfterInsert`, before it goes on with the grandparent. -/
def paintUncle (m : RBTreeMap K V) (node : Ptr) : RBTreeMap K V :=
  let m := m.setColor (m.parent node) .black
  let m := m.setColor (m.getUncle node) .black
  m.setColor (m.getGrandParent node) .red

def maintainAfterInsert : ℕ → RBTreeMap K V → Ptr → RBTreeMap K V
  | 0, m, _ => m
  | fuel + 1, m, node =>
    if m.isRoot node then m.setColor node .black
    else if m.color (m.parent node) = .black then m
    else if m.isRoot (m.parent node) then m.setColor (m.parent node) .black
    else if m.hasUncle node ∧ m.color (m.getUncle node) = .red then
      maintainAfterInsert fuel (m.paintUncle node) ((m.paintUncle node).getGrandParent node)
    else (m.straighten node).1.rotateGrandParent (m.straighten node).2

/-- `new Node(key, value)`, at the address `m.next`. -/
def allocate (m : RBTreeMap K V) (key : K) (value : V) : RBTreeMap K V :=
  {m with heap := Function.update m.heap m.next {first := key, second := value}, next := m.next + 1}

/-- A new left child, up to the rebalancing. -/
def linkLeft (m : RBTreeMap K V) (node : Ptr) (key : K) (value : V) : RBTreeMap K V :=
  let result := m.next
  let m := m.allocate key value
  let m := m.setLeft node result
  let m := m.setParent result node
  if m.left header = node then m.setLeft header result else m

def linkRight (m : RBTreeMap K V) (node : Ptr) (key : K) (value : V) : RBTreeMap K V :=
  let result := m.next
  let m := m.allocate key value
  let m := m.setRight node result
  let m := m.setParent result node
  if m.right header = node then m.setRight header result else m

/-- The rebalancing from a new node, which is then counted. -/
def maintainNew (m : RBTreeMap K V) (result : Ptr) : RBTreeMap K V :=
  let m := maintainAfterInsert m.next m result
  {m with cnt := m.cnt + 1}

variable [LinearOrder K]

/-- `provide` makes a node with the default value. -/
def getNodeOrProvide [Inhabited V] : ℕ → RBTreeMap K V → Ptr → K → RBTreeMap K V × Ptr
  | 0, m, node, _ => (m, node)
  | fuel + 1, m, node, key =>
    if key = m.first node then (m, node)
    else if key < m.first node then
      if m.left node = null then ((m.linkLeft node key default).maintainNew m.next, m.next)
      else getNodeOrProvide fuel m (m.left node) key
    else if m.right node = null then ((m.linkRight node key default).maintainNew m.next, m.next)
    else getNodeOrProvide fuel m (m.right node) key

/-- The recursive `insert`. -/
def insertNode : ℕ → RBTreeMap K V → Ptr → K → V → Bool → RBTreeMap K V
  | 0, m, _, _, _, _ => m
  | fuel + 1, m, node, key, value, replace =>
    if key = m.first node then if replace then m.setSecond node value else m
    else if key < m.first node then
      if m.left node = null then (m.linkLeft node key value).maintainNew m.next
      else insertNode fuel m (m.left node) key value replace
    else if m.right node = null then (m.linkRight node key value).maintainNew m.next
    else insertNode fuel m (m.right node) key value replace

/-- The first node of an empty map. -/
def plant (m : RBTreeMap K V) (key : K) (value : V) : RBTreeMap K V :=
  let result := m.next
  let m := m.allocate key value
  let m := {m with root := result}
  let m := m.setParent result header
  let m := m.setColor result .black
  let m := m.setParent header result
  let m := (m.setRight header result).setLeft header result
  {m with cnt := m.cnt + 1}

def insert (m : RBTreeMap K V) (key : K) (value : V) : RBTreeMap K V :=
  if m.root = null then m.plant key value else insertNode m.next m m.root key value true

/-- The map and the node whose value is returned by reference. -/
def getOrDefault [Inhabited V] (m : RBTreeMap K V) (key : K) : RBTreeMap K V × Ptr :=
  if m.root = null then (m.plant key default, m.next) else getNodeOrProvide m.next m m.root key

end Insert

section Erase
def closeNephew (m : RBTreeMap K V) (sibling : Ptr) (direction : Direction) : Ptr :=
  if direction = .left then m.left sibling else m.right sibling

def distantNephew (m : RBTreeMap K V) (sibling : Ptr) (direction : Direction) : Ptr :=
  if direction = .left then m.right sibling else m.left sibling

/-- Case 1 of `maintainAfterRemove`. -/
def lowerParent (m : RBTreeMap K V) (node : Ptr) (direction : Direction) : RBTreeMap K V :=
  let parent := m.parent node
  let sibling := m.getSibling node
  let m := m.rotateSameDirection parent direction
  let m := m.setColor sibling .black
  m.setColor parent .red

/-- Case 4 of `maintainAfterRemove`. -/
def raiseCloseNephew (m : RBTreeMap K V) (node : Ptr) (direction : Direction) : RBTreeMap K V :=
  let sibling := m.getSibling node
  let closeNephew := m.closeNephew sibling direction
  let m := m.rotateOppositeDirection sibling direction
  let m := m.setColor closeNephew .black
  m.setColor sibling .red

/-- Case 5 of `maintainAfterRemove`. -/
def raiseSibling (m : RBTreeMap K V) (node : Ptr) (direction : Direction) : RBTreeMap K V :=
  let sibling := m.getSibling node
  let distantNephew := m.distantNephew sibling direction
  let m := m.rotateSameDirection (m.parent node) direction
  let m := m.setColor sibling (m.color (m.parent node))
  let m := m.setColor (m.parent node) .black
  if distantNephew ≠ null then m.setColor distantNephew .black else m

def maintainAfterRemove : ℕ → RBTreeMap K V → Ptr → RBTreeMap K V
  | 0, m, _ => m
  | fuel + 1, m, node =>
    if m.isRoot node then m
    else
      let direction := m.getDirection node
      let m := if m.color (m.getSibling node) = .red then m.lowerParent node direction else m
      let sibling := m.getSibling node
      if m.isBlackOrNull (m.closeNephew sibling direction) ∧ m.isBlackOrNull (m.distantNephew sibling direction) then
        if m.color (m.parent node) = .red then (m.setColor sibling .red).setColor (m.parent node) .black
        else maintainAfterRemove fuel (m.setColor sibling .red) (m.parent node)
      else
        let m := if ¬ m.isBlackOrNull (m.closeNephew sibling direction) then m.raiseCloseNephew node direction else m
        m.raiseSibling node direction

def leftmost : ℕ → RBTreeMap K V → Ptr → Ptr
  | 0, _, node => node
  | fuel + 1, m, node => if m.left node ≠ null then leftmost fuel m (m.left node) else node

def rightmost : ℕ → RBTreeMap K V → Ptr → Ptr
  | 0, _, node => node
  | fuel + 1, m, node => if m.right node ≠ null then rightmost fuel m (m.right node) else node

def shrinkLeft (m : RBTreeMap K V) (node : Ptr) : RBTreeMap K V :=
  if m.left header = node then
    m.setLeft header (if m.right node ≠ null then leftmost m.next m (m.right node) else m.parent node)
  else m

def shrinkRight (m : RBTreeMap K V) (node : Ptr) : RBTreeMap K V :=
  if m.right header = node then
    m.setRight header (if m.left node ≠ null then rightmost m.next m (m.left node) else m.parent node)
  else m

/-- The nodes that `release` frees are not read again. -/
def clear (m : RBTreeMap K V) : RBTreeMap K V :=
  let m := (m.setRight header header).setLeft header header
  let m := if m.root ≠ null then {m.setParent header null with root := null} else m
  {m with cnt := 0}

def successorLoop : ℕ → RBTreeMap K V → Ptr → Ptr → Ptr × Ptr
  | 0, _, successor, parent => (successor, parent)
  | fuel + 1, m, successor, parent =>
    if m.left successor ≠ null then successorLoop fuel m (m.left successor) successor else (successor, parent)

/-- The four `std::swap` of a node and its successor. -/
def swapFields (m : RBTreeMap K V) (node successor : Ptr) : RBTreeMap K V :=
  let m := (m.setParent node (m.parent successor)).setParent successor (m.parent node)
  let m := (m.setLeft node (m.left successor)).setLeft successor (m.left node)
  let m := (m.setRight node (m.right successor)).setRight successor (m.right node)
  (m.setColor node (m.color successor)).setColor successor (m.color node)

/-- Case 1 of `remove`: a node with two children and its successor change places. -/
def swapWithSuccessor (m : RBTreeMap K V) (node : Ptr) : RBTreeMap K V :=
  let successor := (successorLoop m.next m (m.right node) node).1
  let parent := (successorLoop m.next m (m.right node) node).2
  let m := match m.getDirection successor with
    | .left => m.setLeft (m.parent successor) node
    | .right => m.setRight (m.parent successor) node
    | .root => m
  let m := m.relink (m.getDirection node) (m.parent node) successor
  let m := m.swapFields node successor
  ((m.maintainRelationship node).maintainRelationship successor).maintainRelationship parent

/-- `delete node`; its parent field then reads as `stale` says. -/
def delete (stale : Ptr → Ptr → Ptr) (m : RBTreeMap K V) (node : Ptr) : RBTreeMap K V :=
  m.setParent node (stale node (m.parent node))

/-- Case 2 of `remove`: the child that is deleted is the node, whose parent is read again after. -/
def unlinkLeaf (stale : Ptr → Ptr → Ptr) (m : RBTreeMap K V) (node : Ptr) : RBTreeMap K V :=
  let m := if m.color node = .black then maintainAfterRemove m.next m node else m
  if m.getDirection node = .left then
    let m := m.delete stale (m.left (m.parent node))
    m.setLeft (m.parent node) null
  else
    let m := m.delete stale (m.right (m.parent node))
    m.setRight (m.parent node) null

/-- Case 3 of `remove`. -/
def replaceByChild (stale : Ptr → Ptr → Ptr) (m : RBTreeMap K V) (node : Ptr) : RBTreeMap K V :=
  let parent := m.parent node
  let replacement := if m.left node ≠ null then m.left node else m.right node
  let black := m.color node = .black
  let m := m.relink (m.getDirection node) parent replacement
  let m := m.delete stale (m.parent replacement)
  let m := m.setParent replacement parent
  if black then
    if m.color replacement = .red then m.setColor replacement .black else maintainAfterRemove m.next m replacement
  else m

/-- What `remove` does once it has found the node. -/
def removeFound (stale : Ptr → Ptr → Ptr) (m : RBTreeMap K V) (node : Ptr) : RBTreeMap K V :=
  let m := (m.shrinkLeft node).shrinkRight node
  if m.cnt = 1 then m.clear
  else
    let m := if m.left node ≠ null ∧ m.right node ≠ null then m.swapWithSuccessor node else m
    let m := if m.left node = null ∧ m.right node = null then m.unlinkLeaf stale node else m.replaceByChild stale node
    {m with cnt := m.cnt - 1}

variable [LinearOrder K]

def remove (stale : Ptr → Ptr → Ptr) : ℕ → RBTreeMap K V → Ptr → K → RBTreeMap K V × Bool
  | 0, m, _, _ => (m, false)
  | fuel + 1, m, node, key =>
    if key ≠ m.first node then
      let child := if key < m.first node then m.left node else m.right node
      if child ≠ null then
        let r := remove stale fuel m child key
        if r.2 then (r.1.maintainRelationship node, true) else (r.1, false)
      else (m, false)
    else (m.removeFound stale node, true)

/-- `erase(key)`. -/
def erase (stale : Ptr → Ptr → Ptr) (m : RBTreeMap K V) (key : K) : RBTreeMap K V × ℕ :=
  if m.root = null then (m, 0)
  else
    let r := remove stale m.next m m.root key
    (r.1, if r.2 then 1 else 0)

end Erase

section Iterators
/-- The climb of `increment` from right children to their parents. -/
def climb : ℕ → RBTreeMap K V → Ptr → Ptr → Ptr × Ptr
  | 0, _, node, y => (node, y)
  | fuel + 1, m, node, y => if node = m.right y then climb fuel m y (m.parent y) else (node, y)

def increment (m : RBTreeMap K V) (node : Ptr) : Ptr :=
  if m.right node ≠ null then leftmost m.next m (m.right node)
  else
    let r := climb m.next m node (m.parent node)
    if m.right r.1 ≠ r.2 then r.2 else r.1

def begin (m : RBTreeMap K V) : Ptr := m.left header

variable [LinearOrder K]

/-- `erase(position)`. -/
def eraseAt (stale : Ptr → Ptr → Ptr) (m : RBTreeMap K V) (position : Ptr) : RBTreeMap K V × Ptr :=
  if position = null ∨ position = header then (m, position)
  else ((remove stale m.next m m.root (m.first position)).1, m.increment position)

def eraseLoop (stale : Ptr → Ptr → Ptr) (last : Ptr) : ℕ → RBTreeMap K V → Ptr → RBTreeMap K V
  | 0, m, _ => m
  | fuel + 1, m, first =>
    if first ≠ last then
      eraseLoop stale last fuel (remove stale m.next m m.root (m.first first)).1 (m.increment first)
    else m

/-- `erase(first, last)`. -/
def eraseRange (stale : Ptr → Ptr → Ptr) (m : RBTreeMap K V) (first last : Ptr) : RBTreeMap K V × Ptr :=
  if first = m.begin ∧ last = header then (m.clear, header)
  else (eraseLoop stale last m.next m first, last)

end Iterators

section Access
variable [LinearOrder K]

/-- The node of a key, or null. -/
def getNode : ℕ → RBTreeMap K V → Ptr → K → Ptr
  | 0, _, _, _ => null
  | fuel + 1, m, node, key =>
    if key = m.first node then node
    else if key < m.first node then if m.left node = null then null else getNode fuel m (m.left node) key
    else if m.right node = null then null else getNode fuel m (m.right node) key

/-- `none` where `NoSuchMappingException` is thrown. -/
def get (m : RBTreeMap K V) (key : K) : Option V :=
  if m.root = null then none
  else if getNode m.next m m.root key ≠ null then some (m.second (getNode m.next m m.root key)) else none

/-- `none` where the assertion of `getNode` on its node fails. -/
def count (m : RBTreeMap K V) (key : K) : Option ℕ :=
  if m.root = null then none else some (if getNode m.next m m.root key ≠ null then 1 else 0)

def size (m : RBTreeMap K V) : ℕ := m.cnt

def empty (m : RBTreeMap K V) : Bool := m.cnt = 0

end Access

/-- The constructor. -/
def make [Inhabited K] [Inhabited V] : RBTreeMap K V where
  heap := Function.update (fun _ => {first := default, second := default}) header
    {left := header, right := header, first := default, second := default}
  root := null
  cnt := 0
  next := 2

end RBTreeMap

end Zpc
