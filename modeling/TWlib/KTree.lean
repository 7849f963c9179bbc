import TWlib.Lib.CellStore
import TWlib.Lib.MachineInt
import TWlib.Lib.SeparatedRow

/-!
# The B-tree of `ktree.h` and `TW_KTree_32`

The functions that `KBTREE_INIT` makes, on the memory of the nodes; `tw_ktree.h` has the same text
as members of a class. A node shows the keys and the children that its `n` counts. `none` is an
access outside of a block, to a freed node or to bytes that hold no key, or a loop that does not
end.
-/

namespace TWlib.KTree

open TWlib.Lib.CellStore
open TWlib.Lib.MachineInt
open TWlib.Lib.SeparatedRow (insertAt removeAt replaceAt)

set_option autoImplicit false

/-- `kbnode_t` with what its block holds; `bytes` is the size of the block. The pointers of a leaf
are not written, in a block with room for them they are null from `calloc`. -/
structure KbNode (Key : Type) where
  bytes : Nat
  isInternal : Bool
  keys : List Key
  ptrs : List (Option Nat)
deriving DecidableEq

def KbNode.n {Key : Type} (node : KbNode Key) : Nat := node.keys.length

/-- The fields of `kbtree_t` that `kb_init` sets once, and `sizeof(key_t)`. -/
structure Layout where
  keySize : Nat
  offPtr : Nat
  ilen : Nat
  elen : Nat
  n : Nat
  t : Nat
deriving DecidableEq

/-- `kbtree_t` and the memory of the nodes. -/
structure KbTree (Key : Type) where
  layout : Layout
  root : Nat
  nKeys : Int
  nNodes : Int
  nodes : Store (KbNode Key)

variable {Key : Type}

def KbTree.setNodes (b : KbTree Key) (nodes : Store (KbNode Key)) : KbTree Key := { b with nodes }

@[simp] theorem setNodes_layout (b : KbTree Key) (nodes : Store (KbNode Key)) :
    (b.setNodes nodes).layout = b.layout := rfl

@[simp] theorem setNodes_root (b : KbTree Key) (nodes : Store (KbNode Key)) :
    (b.setNodes nodes).root = b.root := rfl

@[simp] theorem setNodes_nKeys (b : KbTree Key) (nodes : Store (KbNode Key)) :
    (b.setNodes nodes).nKeys = b.nKeys := rfl

@[simp] theorem setNodes_nNodes (b : KbTree Key) (nodes : Store (KbNode Key)) :
    (b.setNodes nodes).nNodes = b.nNodes :=
  rfl

@[simp] theorem setNodes_nodes (b : KbTree Key) (nodes : Store (KbNode Key)) :
    (b.setNodes nodes).nodes = nodes := rfl

@[simp] theorem setNodes_twice (b : KbTree Key) (nodes others : Store (KbNode Key)) :
    (b.setNodes nodes).setNodes others = b.setNodes others := rfl

/-! ## Making a tree -/

/-- `size` is an `int`, what is computed from it a `size_t` up to the assignment to the `int`
`b->t`. `counted` is the size of a key as the formula has it: that of the keys in `ktree.h`, that of
another type in `tw_ktree.h`, where `key_t` is the one of the system. -/
def kbDegree (size : Int) (counted : Nat) : Int :=
  asInt (((size - 4 - 8) % 2 ^ 64 / (8 + counted) + 1) / 2)

def kbLayout (keySize t : Nat) : Layout :=
  let n := 2 * t - 1
  let offPtr := 4 + n * keySize
  { keySize, offPtr, n, t, ilen := (4 + 8 + n * (8 + keySize) + 3) / 4 * 4,
    elen := (offPtr + 3) / 4 * 4 }

/-- `kb_init`, with no tree where the result is a null pointer or a size is not an `int`. -/
def kbInit (size : Int) (counted keySize : Nat) : Option (KbTree Key) :=
  if kbDegree size counted < 2 then none
  else
    let layout := kbLayout keySize (kbDegree size counted).toNat
    if layout.ilen < 2 ^ 31 then
      some { layout, root := 0, nKeys := 0, nNodes := 1,
             nodes := Store.empty.push ⟨layout.ilen, false, [], []⟩ }
    else none

/-! ## Nodes -/

def readNode (b : KbTree Key) (x : Nat) : Option (KbNode Key) := b.nodes.read x

/-- What is written stays in the area of the keys and in the block. -/
def writeNode (b : KbTree Key) (x : Nat) (node : KbNode Key) : Option (KbTree Key) := do
  let _ ← b.nodes.read x
  if 4 + node.n * b.layout.keySize ≤ b.layout.offPtr ∧
      (node.ptrs = [] ∨ b.layout.offPtr + node.ptrs.length * 8 ≤ node.bytes) then
    some (b.setNodes (b.nodes.write x node))
  else none

/-- `__KB_PTR(b, x)[i]` where it is a node. -/
def childAt (node : KbNode Key) (i : Int) : Option Nat :=
  if 0 ≤ i then node.ptrs[i.toNat]?.join else none

def childSize (b : KbTree Key) (node : KbNode Key) (i : Int) : Option Nat := do
  let child ← readNode b (← childAt node i)
  some child.n

/-- What `&__KB_KEY(key_t, x)[i]` points to. -/
def keyAt (b : KbTree Key) (place : Nat × Nat) : Option Key := do
  let node ← readNode b place.1
  node.keys[place.2]?

/-! ## Searching -/

def kbGenericCmp {Key : Type} [LT Key] [DecidableRel (LT.lt : Key → Key → Prop)]
    (a b : Key) : Int :=
  (if b < a then 1 else 0) - if a < b then 1 else 0

section Search

variable (cmp : Key → Key → Int)

/-- The binary search of `__kb_getp_aux`. -/
def getpLoop (keys : List Key) (k : Key) : Nat → Nat → Nat → Option Nat
  | 0, _, _ => none
  | fuel + 1, first, last => do
      if first < last then
        let mid := (first + last) / 2
        if cmp (← keys[mid]?) k < 0 then getpLoop keys k fuel (mid + 1) last
          else getpLoop keys k fuel first mid
      else some first

/-- `__kb_getp_aux`: the index, and what it leaves in `*r`. -/
def getpAux (keys : List Key) (k : Key) (r : Int) : Option (Int × Int) := do
  if keys.length = 0 then some (-1, r)
  else
    let first ← getpLoop cmp keys k (keys.length + 1) 0 keys.length
    if first = keys.length then some (keys.length - 1, 1)
    else
      let r := cmp k (← keys[first]?)
      if r < 0 then some (first - 1, r) else some (first, r)

def getpWalk (b : KbTree Key) (k : Key) : Nat → Option Nat → Int → Option (Option (Nat × Nat))
  | _, none, _ => some none
  | 0, some _, _ => none
  | fuel + 1, some x, r => do
      let node ← readNode b x
      let (i, r) ← getpAux cmp node.keys k r
      if 0 ≤ i ∧ r = 0 then some (some (x, i.toNat))
      else if !node.isInternal then some none
      else getpWalk b k fuel (← node.ptrs[(i + 1).toNat]?) r

/-- The place of a key, or a null pointer. -/
def kbGetp (b : KbTree Key) (k : Key) : Option (Option (Nat × Nat)) :=
  getpWalk cmp b k b.nodes.fresh (some b.root) 0

def intervalWalk (b : KbTree Key) (k : Key) : Nat → Option Nat → Int → Option (Nat × Nat) →
    Option (Nat × Nat) →
    Option (Option (Nat × Nat) × Option (Nat × Nat))
  | _, none, _, lower, upper => some (lower, upper)
  | 0, some _, _, _, _ => none
  | fuel + 1, some x, r, lower, upper => do
      let node ← readNode b x
      let (i, r) ← getpAux cmp node.keys k r
      if 0 ≤ i ∧ r = 0 then some (some (x, i.toNat), some (x, i.toNat))
      else
        let lower := if 0 ≤ i then some (x, i.toNat) else lower
        let upper := if i < (node.n : Int) - 1 then some (x, (i + 1).toNat) else upper
        if !node.isInternal then some (lower, upper)
        else intervalWalk b k fuel (← node.ptrs[(i + 1).toNat]?) r lower upper

/-- `*lower` and `*upper`. -/
def kbIntervalp (b : KbTree Key) (k : Key) : Option (Option (Nat × Nat) × Option (Nat × Nat)) :=
  intervalWalk cmp b k b.nodes.fresh (some b.root) 0 none none

end Search

/-- `__kb_get_first`: the walk reads the pointer area of a leaf too. -/
def firstWalk (b : KbTree Key) : Nat → Nat → Option Key
  | 0, _ => none
  | fuel + 1, x => do
      let node ← readNode b x
      match node.ptrs with
      | [] => if b.layout.offPtr + 8 ≤ node.bytes then node.keys[0]? else none
      | none :: _ => node.keys[0]?
      | some below :: _ => firstWalk b fuel below

def kbGetFirst (b : KbTree Key) : Option Key := firstWalk b b.nodes.fresh b.root

/-! ## Adding -/

/-- What `__kb_split` leaves in `y`. -/
def leftHalf (layout : Layout) (y : KbNode Key) : KbNode Key :=
  { y with keys := y.keys.take (layout.t - 1), ptrs := y.ptrs.take layout.t }

/-- What it copies into the new node `z`. -/
def rightHalf (layout : Layout) (y : KbNode Key) : KbNode Key where
  bytes := if y.isInternal then layout.ilen else layout.elen
  isInternal := y.isInternal
  keys := (y.keys.drop layout.t).take (layout.t - 1)
  ptrs := if y.isInternal then (y.ptrs.drop layout.t).take layout.t else []

/-- `__kb_split`: the node `y` at the place `i` of `x` is cut in two around its middle key. -/
def kbSplit (b : KbTree Key) (x : Nat) (i : Int) (y : Nat) : Option (KbTree Key) := do
  let full ← readNode b y
  let middle ← full.keys[b.layout.t - 1]?
  if full.n < 2 * b.layout.t - 1 then none
  else
    let z := b.nodes.fresh
    let b := { b with nNodes := asInt (b.nNodes + 1) }.setNodes
      (b.nodes.push (rightHalf b.layout full))
    let b ← writeNode b y (leftHalf b.layout full)
    let node ← readNode b x
    let keys ← insertAt i.toNat middle node.keys
    let ptrs ← insertAt (i.toNat + 1) (some z) node.ptrs
    writeNode b x { node with keys, ptrs }

section Put

variable (cmp : Key → Key → Int)

/-- Where `__kb_putp_aux` goes on below an internal node: a full child is split before. -/
def putpChild (b : KbTree Key) (x : Nat) (k : Key) (i : Int) : Option (KbTree Key × Int) := do
  let node ← readNode b x
  let y ← childAt node i
  if (← readNode b y).n = 2 * b.layout.t - 1 then
    let b ← kbSplit b x i y
    let middle ← keyAt b (x, i.toNat)
    some (b, if 0 < cmp k middle then i + 1 else i)
  else some (b, i)

def putpAux : Nat → KbTree Key → Nat → Key → Option (KbTree Key)
  | 0, _, _, _ => none
  | fuel + 1, b, x, k => do
      let node ← readNode b x
      let (i, _) ← getpAux cmp node.keys k 0
      if !node.isInternal then
        let keys ← insertAt (i + 1).toNat k node.keys
        writeNode b x { node with keys }
      else
        let (b, i) ← putpChild cmp b x k (i + 1)
        putpAux fuel b (← childAt (← readNode b x) i) k

/-- The part of `kb_putp` that gives a full root a new root above it. -/
def growRoot (b : KbTree Key) : Option (KbTree Key) := do
  if (← readNode b b.root).n = 2 * b.layout.t - 1 then
    let s := b.nodes.fresh
    let top : KbNode Key := ⟨b.layout.ilen, true, [], [some b.root]⟩
    let r := b.root
    let b := { b with nNodes := asInt (b.nNodes + 1), nodes := b.nodes.push top, root := s }
    kbSplit b s 0 r
  else some b

def kbPutp (b : KbTree Key) (k : Key) : Option (KbTree Key) := do
  let b ← growRoot { b with nKeys := asInt (b.nKeys + 1) }
  putpAux cmp (b.nodes.fresh + 1) b b.root k

end Put

/-! ## Removing -/

/-- What a merge writes into the left one of two nodes. -/
def mergedNode (left : KbNode Key) (middle : Key) (right : KbNode Key) : KbNode Key :=
  { left with
    keys := left.keys ++ middle :: right.keys
    ptrs := if left.isInternal then left.ptrs ++ right.ptrs else left.ptrs }

/-- The three merges of `__kb_delp_aux`: the children `j` and `j + 1` of `x` become one with
`middle` between them. The node they are in is the result. -/
def kbJoin (b : KbTree Key) (x : Nat) (j : Int) (middle : Key) : Option (KbTree Key × Nat) := do
  let node ← readNode b x
  let y ← childAt node j
  let z ← childAt node (j + 1)
  let left ← readNode b y
  let right ← readNode b z
  let b ← writeNode b y (mergedNode left middle right)
  let keys ← removeAt j.toNat node.keys
  let ptrs ← removeAt (j.toNat + 1) node.ptrs
  let b ← writeNode b x { node with keys, ptrs }
  some (b.setNodes (b.nodes.giveUp z), y)

/-- `__KB_KEY(key_t, x)[i] = …;` -/
def setKey (b : KbTree Key) (x : Nat) (i : Int) (key : Key) : Option (KbTree Key) := do
  let node ← readNode b x
  let keys ← replaceAt i.toNat key node.keys
  writeNode b x { node with keys }

/-- The node with a key, and the last pointer of the node before it, in front. -/
def withFirst (key : Key) (before node : KbNode Key) : Option (KbNode Key) := do
  let ptrs ← if node.isInternal then before.ptrs.getLast?.map (· :: node.ptrs) else some node.ptrs
  some { node with keys := key :: node.keys, ptrs }

/-- The node with a key, and the first pointer of the node behind it, at the end. -/
def withLast (key : Key) (behind node : KbNode Key) : Option (KbNode Key) := do
  let ptrs ← if node.isInternal then behind.ptrs.head?.map (node.ptrs ++ [·]) else some node.ptrs
  some { node with keys := node.keys ++ [key], ptrs }

def withoutLast (node : KbNode Key) : KbNode Key :=
  { node with keys := node.keys.dropLast, ptrs := node.ptrs.dropLast }

def withoutFirst (node : KbNode Key) : KbNode Key :=
  { node with keys := node.keys.tail, ptrs := node.ptrs.tail }

/-- The child `i` of `x` gets a key from the one before it. -/
def borrowBefore (b : KbTree Key) (x : Nat) (i : Int) : Option (KbTree Key) := do
  let node ← readNode b x
  let xp ← childAt node i
  let y ← childAt node (i - 1)
  let child ← readNode b xp
  let left ← readNode b y
  let b ← writeNode b xp (← withFirst (← node.keys[(i - 1).toNat]?) left child)
  let b ← setKey b x (i - 1) (← left.keys.getLast?)
  writeNode b y (withoutLast left)

/-- The child `i` of `x` gets a key from the one behind it. -/
def borrowBehind (b : KbTree Key) (x : Nat) (i : Int) : Option (KbTree Key) := do
  let node ← readNode b x
  let xp ← childAt node i
  let y ← childAt node (i + 1)
  let child ← readNode b xp
  let right ← readNode b y
  let b ← writeNode b xp (← withLast (← node.keys[i.toNat]?) right child)
  let b ← setKey b x i (← right.keys.head?)
  writeNode b y (withoutFirst right)

/-- `there && (y = __KB_PTR(b, x)[j])->n …`: whether a neighbour exists and has that many keys. -/
def beside (b : KbTree Key) (node : KbNode Key) (there : Bool) (j : Int) (test : Nat → Bool) :
    Option Bool :=
  if there then (childSize b node j).map test else some false

/-- The part of `__kb_delp_aux` after `++i`: the child `i` of `x` has a key to spare afterwards. The
node to go on with is the result. -/
def refill (b : KbTree Key) (x : Nat) (i : Int) : Option (KbTree Key × Nat) := do
  let node ← readNode b x
  let xp ← childAt node i
  let child ← readNode b xp
  if child.n ≠ b.layout.t - 1 then some (b, xp)
  else if ← beside b node (0 < i) (i - 1) (b.layout.t ≤ ·) then some (← borrowBefore b x i, xp)
  else if ← beside b node (i < node.n) (i + 1) (b.layout.t ≤ ·) then some (← borrowBehind b x i, xp)
  else if ← beside b node (0 < i) (i - 1) (· = b.layout.t - 1) then
    kbJoin b x (i - 1) (← node.keys[(i - 1).toNat]?)
  else if ← beside b node (i < node.n) (i + 1) (· = b.layout.t - 1) then
    kbJoin b x i (← node.keys[i.toNat]?)
  else some (b, xp)

/-- The branches for a key found in an internal node. -/
inductive Found where
  | fromLeft
  | fromRight
  | join
  | neither
deriving DecidableEq

def delpFound (b : KbTree Key) (node : KbNode Key) (i : Int) : Option Found := do
  let yn ← childSize b node i
  if b.layout.t ≤ yn then some .fromLeft
  else
    let zn ← childSize b node (i + 1)
    if b.layout.t ≤ zn then some .fromRight
    else if yn = b.layout.t - 1 ∧ zn = b.layout.t - 1 then some .join
    else some .neither

section Delete

variable (cmp : Key → Key → Int)

/-- The index and `r` at the start of `__kb_delp_aux`; `s` is 1 for the last key, 2 for the first, 0
for `k`. -/
def delpPlace (node : KbNode Key) (k : Option Key) (s : Nat) : Option (Int × Int) := do
  if s = 0 then getpAux cmp node.keys (← k) 0
  else some (if s = 1 then node.n - 1 else -1, if !node.isInternal then 0
    else if s = 1 then 1 else -1)

def delpAux : Nat → KbTree Key → Option Nat → Option Key → Nat → Option (KbTree Key × Key)
  | 0, _, _, _, _ => none
  | _ + 1, b, none, k, _ => k.map fun k => (b, k)
  | fuel + 1, b, some x, k, s => do
      let node ← readNode b x
      let (i, r) ← delpPlace cmp node k s
      if !node.isInternal then
        let i := if s = 2 then i + 1 else i
        -- Below the first key: the read and the move of the keys are outside of their area.
        if i < 0 then none
        else
          let kp ← node.keys[i.toNat]?
          let keys ← removeAt i.toNat node.keys
          some (← writeNode b x { node with keys }, kp)
      else
        match ← if r = 0 then delpFound b node i else some .neither with
        | .fromLeft =>
            let kp ← node.keys[i.toNat]?
            let (b, last) ← delpAux fuel b (← childAt node i) none 1
            some (← setKey b x i last, kp)
        | .fromRight =>
            let kp ← node.keys[i.toNat]?
            let (b, first) ← delpAux fuel b (← childAt node (i + 1)) none 2
            some (← setKey b x i first, kp)
        | .join =>
            -- The key that goes down is `*k`, not the one of the node.
            let (b, y) ← kbJoin b x i (← k)
            delpAux fuel b y k s
        | .neither =>
            let (b, xp) ← refill b x (i + 1)
            delpAux fuel b xp k s

/-- Without an equal key the way down ends in a leaf. Where all keys of the leaf are above `k` the
index there is -1: the key that is read and the keys that are moved start before the area of the
keys. -/
inductive BeforeFirst (k : Key) : KbTree Key → Nat → Prop where
  | leaf {b : KbTree Key} {x : Nat} {node : KbNode Key} {r : Int} (read : readNode b x = some node)
      (isLeaf : node.isInternal = false) (place : delpPlace cmp node (some k) 0 = some (-1, r)) :
      BeforeFirst k b x
  | descend {b next : KbTree Key} {x xp : Nat} {node : KbNode Key} {i r : Int}
      (read : readNode b x = some node)
      (isInternal : node.isInternal = true) (place : delpPlace cmp node (some k) 0 = some (i, r))
      (differ : r ≠ 0)
      (refilled : refill b x (i + 1) = some (next, xp)) (rest : BeforeFirst k next xp) :
      BeforeFirst k b x

/-- The part of `kb_delp` that takes away a root without keys. -/
def shrinkRoot (b : KbTree Key) : Option (KbTree Key) := do
  let root ← readNode b b.root
  if root.n = 0 ∧ root.isInternal then
    some { b with nNodes := asInt (b.nNodes - 1), root := ← childAt root 0,
                  nodes := b.nodes.giveUp b.root }
  else some b

def kbDelp (b : KbTree Key) (k : Key) : Option (KbTree Key × Key) := do
  let (b, ret) ← delpAux cmp (b.nodes.fresh + 1) b b.root k 0
  some (← shrinkRoot { b with nKeys := asInt (b.nKeys - 1) }, ret)

end Delete

/-! ## Walks over all nodes -/

/-- `--__kp` and what follows it: the entry that is then the top moves on by one, and `__func` gets
the key that it stood before. -/
def kpDown (b : KbTree Key) : List (Option Nat × Nat) → Option (List (Option Nat × Nat) × List Key)
  | [] => some ([], [])
  | (none, i) :: below => some ((none, i + 1) :: below, [])
  | (some x, i) :: below => do
      let node ← readNode b x
      let called ← if i < node.n then (node.keys[i]?).map fun key => [key] else some []
      some ((some x, i + 1) :: below, called)

/-- The two loops of `__kb_traverse` as one: a child of the top is put on the stack as long as there
is one. The stack has room for `kmax` entries, which is doubled when the last one is in use; `seen`
are the keys that `__func` got. -/
def traverseLoop (b : KbTree Key) : Nat → Nat → List (Option Nat × Nat) → List Key →
    Option (List Key)
  | 0, _, _, _ => none
  | _ + 1, _, [], seen => some seen
  | fuel + 1, kmax, (none, _) :: below, seen => do
      let (below, called) ← kpDown b below
      traverseLoop b fuel kmax below (seen ++ called)
  | fuel + 1, kmax, (some x, i) :: below, seen => do
      let node ← readNode b x
      if i ≤ node.n then
        let kmax := if below.length = kmax - 1 then 2 * kmax else kmax
        let child ← if node.isInternal then node.ptrs[i]? else some none
        if below.length + 1 < kmax then
          traverseLoop b fuel kmax ((child, 0) :: (some x, i) :: below) seen
        else none
      else
        let (below, called) ← kpDown b below
        traverseLoop b fuel kmax below (seen ++ called)

/-- The keys in the order in which `__kb_traverse` shows them. -/
def kbTraverse (b : KbTree Key) : Option (List Key) :=
  traverseLoop b (2 * (b.nodes.fresh * (b.layout.n + 1) + 1)) 8 [(some b.root, 0)] []

/-- The children that `__kb_destroy` puts on its stack, which is doubled when it is full. -/
def pushChildren : List (Option Nat) → Nat → List Nat → Option (Nat × List Nat)
  | [], max, stack => some (max, stack)
  | none :: ptrs, max, stack => pushChildren ptrs max stack
  | some y :: ptrs, max, stack =>
      let max := if stack.length = max then 2 * max else max
      if stack.length < max then pushChildren ptrs max (y :: stack) else none

def destroyLoop : Nat → Store (KbNode Key) → Nat → List Nat → Option (Store (KbNode Key))
  | 0, _, _, _ => none
  | _ + 1, nodes, _, [] => some nodes
  | fuel + 1, nodes, max, x :: stack => do
      let node ← nodes.read x
      let (max, stack) ← if node.isInternal then pushChildren node.ptrs max stack
        else some (max, stack)
      destroyLoop fuel (nodes.giveUp x) max stack

/-- The nodes that are left after `__kb_destroy`. -/
def kbDestroy (b : KbTree Key) : Option (Store (KbNode Key)) :=
  destroyLoop (b.nodes.fresh + 1) b.nodes 8 [b.root]

end TWlib.KTree
