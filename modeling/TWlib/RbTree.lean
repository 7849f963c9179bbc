import TWlib.Lib.CellStore
import TWlib.Lib.RedBlackTree

/-!
# The red-black tree of `RB_Tree`

The functions that `RB_GENERATE` makes and the members of `RB_Tree`, on the memory of the nodes.
`none` is a step through a pointer that leads nowhere, or a loop that does not end. The macros write
every case twice with `LEFT` and `RIGHT` exchanged; here the side is an argument, and where the
macro asks for `RB_LEFT` in both cases so does the definition.
-/

namespace TWlib.RbTree

open TWlib.Lib.CellStore
open TWlib.Lib.TreeZipper (Side)
open TWlib.Lib.RedBlackTree (Color)

set_option autoImplicit false

/-- `rb_node`, its `RB_ENTRY` spread out. -/
structure RbNode (Data : Type) where
  data : Data
  rbeLeft : Option Nat
  rbeRight : Option Nat
  rbeParent : Option Nat
  rbeColor : Color
deriving DecidableEq

def RbNode.child {Data : Type} (side : Side) (node : RbNode Data) : Option Nat :=
  match side with
  | .left => node.rbeLeft
  | .right => node.rbeRight

def RbNode.setChild {Data : Type} (side : Side) (target : Option Nat) (node : RbNode Data) :
    RbNode Data :=
  match side with
  | .left => { node with rbeLeft := target }
  | .right => { node with rbeRight := target }

def RbNode.setParent {Data : Type} (target : Option Nat) (node : RbNode Data) : RbNode Data :=
  { node with rbeParent := target }

def RbNode.setColor {Data : Type} (color : Color) (node : RbNode Data) : RbNode Data :=
  { node with rbeColor := color }

/-- `rb_head_t` and the memory of the nodes. -/
structure RbHead (Data : Type) where
  rbhRoot : Option Nat
  nodes : Store (RbNode Data)

variable {Data : Type}

/-! ## The fields of a node -/

def rbChild (side : Side) (head : RbHead Data) (elm : Nat) : Option (Option Nat) :=
  (head.nodes.read elm).map (RbNode.child side)

def rbParent (head : RbHead Data) (elm : Nat) : Option (Option Nat) :=
  (head.nodes.read elm).map RbNode.rbeParent

def rbColor (head : RbHead Data) (elm : Nat) : Option Color :=
  (head.nodes.read elm).map RbNode.rbeColor

/-- `ptr && RB_COLOR(ptr) == RB_RED`; its negation is `ptr == NULL || RB_COLOR(ptr) == RB_BLACK`. -/
def isRed (head : RbHead Data) (elm : Option Nat) : Option Bool :=
  match elm with
  | none => some false
  | some elm => (rbColor head elm).map (· == .red)

def adjust (change : RbNode Data → RbNode Data) (head : RbHead Data) (elm : Nat) :
    Option (RbHead Data) := do
  let node ← head.nodes.read elm
  some { head with nodes := head.nodes.write elm (change node) }

def setChild (side : Side) (head : RbHead Data) (elm : Nat) (target : Option Nat) :
    Option (RbHead Data) :=
  adjust (RbNode.setChild side target) head elm

def setParent (head : RbHead Data) (elm : Nat) (target : Option Nat) : Option (RbHead Data) :=
  adjust (RbNode.setParent target) head elm

def setColor (head : RbHead Data) (elm : Nat) (color : Color) : Option (RbHead Data) :=
  adjust (RbNode.setColor color) head elm

def setBlackRed (head : RbHead Data) (black red : Nat) : Option (RbHead Data) := do
  let head ← setColor head black .black
  setColor head red .red

/-- `if (elm) RB_COLOR(elm) = RB_BLACK;` -/
def blacken (head : RbHead Data) (elm : Option Nat) : Option (RbHead Data) :=
  match elm with
  | none => some head
  | some elm => setColor head elm .black

/-- `if (child) RB_PARENT(child) = parent;` -/
def hookParent (head : RbHead Data) (child parent : Option Nat) : Option (RbHead Data) :=
  match child with
  | none => some head
  | some child => setParent head child parent

/-- `if (parent) { if (RB_LEFT(parent) == elm) RB_LEFT(parent) = …; else RB_RIGHT(parent) = …; }`
`else RB_ROOT(head) = …;` -/
def replaceChild (head : RbHead Data) (parent : Option Nat) (elm : Nat) (target : Option Nat) :
    Option (RbHead Data) :=
  match parent with
  | none => some { head with rbhRoot := target }
  | some parent => do
      if (← rbChild .left head parent) = some elm then setChild .left head parent target
      else setChild .right head parent target

/-! ## Rotations -/

/-- `RB_ROTATE_LEFT` for `.left`. -/
def rotate (side : Side) (head : RbHead Data) (elm : Nat) : Option (RbHead Data) := do
  let tmp ← ← rbChild side.flip head elm
  let inner ← rbChild side head tmp
  let head ← setChild side.flip head elm inner
  let head ← hookParent head inner (some elm)
  let above ← rbParent head elm
  let head ← setParent head tmp above
  let head ← replaceChild head above elm (some tmp)
  let head ← setChild side head tmp (some elm)
  setParent head elm (some tmp)

def rbRotateLeft (head : RbHead Data) (elm : Nat) : Option (RbHead Data) := rotate .left head elm

def rbRotateRight (head : RbHead Data) (elm : Nat) : Option (RbHead Data) := rotate .right head elm

/-! ## Rebalancing -/

/-- The rest of the round of `RB_INSERT_COLOR` whose uncle is not red; the node to go on with is the
result. -/
def insertTurn (side : Side) (head : RbHead Data) (elm parent gparent : Nat) :
    Option (RbHead Data × Nat) := do
  if (← rbChild side.flip head parent) = some elm then
    let head ← rotate side head parent
    let head ← setBlackRed head elm gparent
    let head ← rotate side.flip head gparent
    some (head, parent)
  else
    let head ← setBlackRed head parent gparent
    let head ← rotate side.flip head gparent
    some (head, elm)

/-- The loop of `RB_INSERT_COLOR`. -/
def insertColorLoop : Nat → RbHead Data → Nat → Option (RbHead Data)
  | 0, _, _ => none
  | fuel + 1, head, elm => do
      match ← rbParent head elm with
      | none => some head
      | some parent =>
          if (← rbColor head parent) = .red then
            let gparent ← ← rbParent head parent
            let side := if (← rbChild .left head gparent) = some parent then Side.left else .right
            let tmp ← rbChild side.flip head gparent
            if ← isRed head tmp then
              let head ← setColor head (← tmp) .black
              let head ← setBlackRed head parent gparent
              insertColorLoop fuel head gparent
            else
              let (head, elm) ← insertTurn side head elm parent gparent
              insertColorLoop fuel head elm
          else some head

def rbInsertColor (head : RbHead Data) (elm : Nat) : Option (RbHead Data) := do
  let head ← insertColorLoop (head.nodes.fresh + 1) head elm
  setColor head (← head.rbhRoot) .black

/-- The sibling of the place in `RB_REMOVE_COLOR`, after a red one was rotated away. -/
def blackSibling (side : Side) (head : RbHead Data) (parent : Nat) :
    Option (RbHead Data × Nat) := do
  let tmp ← ← rbChild side.flip head parent
  if (← rbColor head tmp) = .red then
    let head ← setBlackRed head tmp parent
    let head ← rotate side head parent
    some (head, ← ← rbChild side.flip head parent)
  else some (head, tmp)

/-- The sibling whose far child is red, after a red near child was rotated up. -/
def redNephew (side : Side) (head : RbHead Data) (parent tmp : Nat) :
    Option (RbHead Data × Nat) := do
  if ← isRed head (← rbChild side.flip head tmp) then some (head, tmp)
  else
    let head ← blacken head (← rbChild side head tmp)
    let head ← setColor head tmp .red
    let head ← rotate side.flip head tmp
    some (head, ← ← rbChild side.flip head parent)

/-- The part of `RB_REMOVE_COLOR` that ends its loop: one of the sibling's children is red. -/
def removeTurn (side : Side) (head : RbHead Data) (parent tmp : Nat) : Option (RbHead Data) := do
  let (head, tmp) ← redNephew side head parent tmp
  let head ← setColor head tmp (← rbColor head parent)
  let head ← setColor head parent .black
  let head ← blacken head (← rbChild side.flip head tmp)
  rotate side head parent

/-- The loop of `RB_REMOVE_COLOR`; the node left in `elm` is part of the result. -/
def removeColorLoop : Nat → RbHead Data → Option Nat → Option Nat →
    Option (RbHead Data × Option Nat)
  | 0, _, _, _ => none
  | fuel + 1, head, parent, elm => do
      if !(← isRed head elm) && elm ≠ head.rbhRoot then
        let parent ← parent
        let side := if (← rbChild .left head parent) = elm then Side.left else .right
        let (head, tmp) ← blackSibling side head parent
        if !(← isRed head (← rbChild .left head tmp)) &&
            !(← isRed head (← rbChild .right head tmp)) then
          let head ← setColor head tmp .red
          removeColorLoop fuel head (← rbParent head parent) (some parent)
        else
          let head ← removeTurn side head parent tmp
          some (head, head.rbhRoot)
      else some (head, elm)

def rbRemoveColor (head : RbHead Data) (parent elm : Option Nat) : Option (RbHead Data) := do
  let (head, elm) ← removeColorLoop (head.nodes.fresh + 1) head parent elm
  blacken head elm

/-! ## Removing -/

/-- `while (RB_LEFT(elm)) elm = RB_LEFT(elm);` for `.left`. -/
def lastOn (side : Side) (head : RbHead Data) : Nat → Nat → Option Nat
  | 0, _ => none
  | fuel + 1, elm => do
      match ← rbChild side head elm with
      | none => some elm
      | some below => lastOn side head fuel below

/-- The walk to the root that calls `RB_AUGMENT`, which does nothing. -/
def augmentUp (head : RbHead Data) : Nat → Option Nat → Option Unit
  | _, none => some ()
  | 0, some _ => none
  | fuel + 1, some left => do augmentUp head fuel (← rbParent head left)

/-- `(elm)->field = (old)->field;` -/
def copyField (head : RbHead Data) (elm old : Nat) : Option (RbHead Data) := do
  let entry ← head.nodes.read old
  adjust (fun node => { entry with data := node.data }) head elm

/-- What both branches of `RB_REMOVE` do to take a node out above its only child. -/
def detach (head : RbHead Data) (elm : Nat) (child parent : Option Nat) : Option (RbHead Data) := do
  let head ← hookParent head child parent
  replaceChild head parent elm child

/-- The lines from `(elm)->field = (old)->field` on: `elm` takes the place of `old`. -/
def supplant (head : RbHead Data) (elm old : Nat) : Option (RbHead Data) := do
  let head ← copyField head elm old
  let head ← replaceChild head (← rbParent head old) old (some elm)
  let head ← setParent head (← ← rbChild .left head old) (some elm)
  hookParent head (← rbChild .right head old) (some elm)

/-- The branch of `RB_REMOVE` for a node with two children, up to `goto color`: what is then in
`parent`, `child` and `color` comes with the tree. -/
def removeInner (head : RbHead Data) (old right : Nat) :
    Option (RbHead Data × Option Nat × Option Nat × Color) := do
  let elm ← lastOn .left head head.nodes.fresh right
  let child ← rbChild .right head elm
  let parent ← rbParent head elm
  let color ← rbColor head elm
  let head ← detach head elm child parent
  let parent := if (← rbParent head elm) = some old then some elm else parent
  let head ← supplant head elm old
  augmentUp head head.nodes.fresh parent
  some (head, parent, child, color)

/-- The branch for a node with at most one child. -/
def removeOuter (head : RbHead Data) (elm : Nat) (child : Option Nat) :
    Option (RbHead Data × Option Nat × Option Nat × Color) := do
  let parent ← rbParent head elm
  let color ← rbColor head elm
  let head ← detach head elm child parent
  some (head, parent, child, color)

def rbRemove (head : RbHead Data) (elm : Nat) : Option (RbHead Data) := do
  let left ← rbChild .left head elm
  let right ← rbChild .right head elm
  let (head, parent, child, color) ←
    match left, right with
    | none, child => removeOuter head elm child
    | some left, none => removeOuter head elm (some left)
    | some _, some right => removeInner head elm right
  if color = .black then rbRemoveColor head parent child else some head

/-! ## Searching and inserting -/

section Search

variable (cmp : Data → Data → Int)

/-- Where the loop of `RB_INSERT` ends. -/
inductive Landing where
  | equal (tmp : Nat)
  | bottom (parent : Option Nat) (comp : Int)
deriving DecidableEq

def insertLoop (head : RbHead Data) (key : Data) : Nat → Option Nat → Option Nat → Int →
    Option Landing
  | _, none, parent, comp => some (.bottom parent comp)
  | 0, some _, _, _ => none
  | fuel + 1, some tmp, _, _ => do
      let node ← head.nodes.read tmp
      let comp := cmp key node.data
      if comp < 0 then insertLoop head key fuel node.rbeLeft (some tmp) comp
      else if comp > 0 then insertLoop head key fuel node.rbeRight (some tmp) comp
      else some (.equal tmp)

/-- `RB_SET`, and the new node hung where the search ended. -/
def attach (head : RbHead Data) (elm : Nat) (parent : Option Nat) (comp : Int) :
    Option (RbHead Data) := do
  let head ← adjust (fun node => ⟨node.data, none, none, parent, .red⟩) head elm
  match parent with
  | none => some { head with rbhRoot := some elm }
  | some parent => setChild (if comp < 0 then .left else .right) head parent (some elm)

/-- The result is the tree and what the function returns: the node that compares equal, if there is
one. -/
def rbInsert (head : RbHead Data) (elm : Nat) : Option (RbHead Data × Option Nat) := do
  let node ← head.nodes.read elm
  match ← insertLoop cmp head node.data head.nodes.fresh head.rbhRoot none 0 with
  | .equal tmp => some (head, some tmp)
  | .bottom parent comp =>
      let head ← attach head elm parent comp
      let head ← rbInsertColor head elm
      some (head, none)

def findLoop (head : RbHead Data) (key : Data) : Nat → Option Nat → Option (Option Nat)
  | _, none => some none
  | 0, some _ => none
  | fuel + 1, some tmp => do
      let node ← head.nodes.read tmp
      let comp := cmp key node.data
      if comp < 0 then findLoop head key fuel node.rbeLeft
      else if comp > 0 then findLoop head key fuel node.rbeRight
      else some (some tmp)

/-- Of the node it is given the function reads the data only. -/
def rbFind (head : RbHead Data) (key : Data) : Option (Option Nat) :=
  findLoop cmp head key head.nodes.fresh head.rbhRoot

def nfindLoop (head : RbHead Data) (key : Data) : Nat → Option Nat → Option Nat →
    Option (Option Nat)
  | _, none, res => some res
  | 0, some _, _ => none
  | fuel + 1, some tmp, res => do
      let node ← head.nodes.read tmp
      let comp := cmp key node.data
      if comp < 0 then nfindLoop head key fuel node.rbeLeft (some tmp)
      else if comp > 0 then nfindLoop head key fuel node.rbeRight res
      else some (some tmp)

def rbNfind (head : RbHead Data) (key : Data) : Option (Option Nat) :=
  nfindLoop cmp head key head.nodes.fresh head.rbhRoot none

end Search

/-! ## Neighbours -/

/-- The inner loop of `RB_NEXT` for `.right`, and the step that follows it. -/
def climb (side : Side) (head : RbHead Data) : Nat → Nat → Option (Option Nat)
  | 0, _ => none
  | fuel + 1, elm => do
      match ← rbParent head elm with
      | none => some none
      | some above =>
          if (← rbChild side head above) = some elm then climb side head fuel above
            else some (some above)

/-- `RB_NEXT` for `.right`. -/
def rbNeighbour (side : Side) (head : RbHead Data) (elm : Nat) : Option (Option Nat) := do
  match ← rbChild side head elm with
  | some below => (lastOn side.flip head head.nodes.fresh below).map some
  | none =>
      match ← rbParent head elm with
      | none => climb side head head.nodes.fresh elm
      | some above =>
          if (← rbChild side.flip head above) = some elm then some (some above)
          else climb side head head.nodes.fresh elm

def rbNext (head : RbHead Data) (elm : Nat) : Option (Option Nat) := rbNeighbour .right head elm

def rbPrev (head : RbHead Data) (elm : Nat) : Option (Option Nat) := rbNeighbour .left head elm

def minmaxLoop (side : Side) (head : RbHead Data) : Nat → Option Nat → Option Nat →
    Option (Option Nat)
  | _, none, parent => some parent
  | 0, some _, _ => none
  | fuel + 1, some tmp, _ => do minmaxLoop side head fuel (← rbChild side head tmp) (some tmp)

def rbMinmax (head : RbHead Data) (val : Int) : Option (Option Nat) :=
  minmaxLoop (if val < 0 then .left else .right) head head.nodes.fresh head.rbhRoot none

/-! ## `RB_Tree` -/

namespace RbHead

def new : RbHead Data := ⟨none, Store.empty⟩

section Members

variable (cmp : Data → Data → Int)

/-- `calloc` leaves null pointers and the colour 0. What `RB_INSERT` returns is not looked at. -/
def insert (head : RbHead Data) (data : Data) : Option (RbHead Data) := do
  let newnode := head.nodes.fresh
  let head := { head with nodes := head.nodes.push ⟨data, none, none, none, .black⟩ }
  let (head, _) ← rbInsert cmp head newnode
  some head

/-- `find(data)`, which returns `null` where nothing is found. -/
def find (null : Data) (head : RbHead Data) (data : Data) : Option Data := do
  match ← rbFind cmp head data with
  | none => some null
  | some found => (head.nodes.read found).map RbNode.data

/-- `find(data, fill)`: the result and what is then in `fill`. -/
def findFill (head : RbHead Data) (data fill : Data) : Option (Bool × Data) := do
  match ← rbFind cmp head data with
  | none => some (false, fill)
  | some found => (head.nodes.read found).map fun node => (true, node.data)

def remove (null : Data) (head : RbHead Data) (data : Data) : Option (RbHead Data × Data) := do
  match ← rbFind cmp head data with
  | none => some (head, null)
  | some found =>
      let node ← head.nodes.read found
      let head ← rbRemove head found
      some ({ head with nodes := head.nodes.giveUp found }, node.data)

end Members

def isEmpty (head : RbHead Data) : Bool := head.rbhRoot.isNone

/-- The loop of the destructor, which does nothing with the nodes it walks over. -/
def destroyLoop (head : RbHead Data) : Nat → Option Nat → Option Unit
  | _, none => some ()
  | 0, some _ => none
  | fuel + 1, some walk => do destroyLoop head fuel (← rbNext head walk)

def destroy (head : RbHead Data) : Option (RbHead Data) := do
  destroyLoop head head.nodes.fresh (← rbMinmax head (-1))
  some head

end RbHead

/-- `RB_Tree::Iter` without the reference to its tree. -/
structure Iter where
  node : Option Nat
deriving DecidableEq

namespace Iter

def new : Iter := ⟨none⟩

def startMax (head : RbHead Data) : Option Iter := (rbMinmax head 1).map Iter.mk

def startMin (head : RbHead Data) : Option Iter := (rbMinmax head (-1)).map Iter.mk

/-- `getNext` for `.right`, `getPrev` for `.left`. At the end the iterator stays where it is. -/
def step (side : Side) (null : Data) (iter : Iter) (head : RbHead Data) : Option (Iter × Data) :=
  match iter.node with
  | none => some (iter, null)
  | some node => do
      match ← rbNeighbour side head node with
      | none => some (iter, null)
      | some nex => (head.nodes.read nex).map fun content => (⟨some nex⟩, content.data)

def getNext (null : Data) (iter : Iter) (head : RbHead Data) : Option (Iter × Data) :=
  step .right null iter head

def getPrev (null : Data) (iter : Iter) (head : RbHead Data) : Option (Iter × Data) :=
  step .left null iter head

def current (null : Data) (iter : Iter) (head : RbHead Data) : Option Data :=
  match iter.node with
  | none => some null
  | some node => (head.nodes.read node).map RbNode.data

end Iter

end TWlib.RbTree
