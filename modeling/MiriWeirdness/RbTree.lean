import Mathlib.Order.Compare
import MiriWeirdness.Faults
import MiriWeirdness.Library.Arena

/-!
# The red-black tree

`rb_tree.rs`. The nodes are linked by raw pointers, to the parent as well as to the children, so the model keeps them in a heap: a
pointer is an address, a node is a cell with its links, its colour, its key and its value. A dereference of an address that holds no
node is the fault `dangling`. No node is freed by an insert or a removal. The loop of `recolor_2` and the descents of `insert`, `remove`
and `get` are run with fuel, one unit for each round; a heap's size and one is enough for any of them in a tree (`Lemmas/RbInsert`,
`Lemmas/RbRemove`).
-/

namespace MiriWeirdness

namespace RbTree

/-- `enum Color`. -/
inductive Color where
  | red | black
  deriving DecidableEq, Repr

theorem Color.eq_red {c : Color} (h : c ≠ .black) : c = .red := by
  cases c with
  | red => rfl
  | black => exact absurd rfl h

theorem Color.eq_black {c : Color} (h : c ≠ .red) : c = .black := by
  cases c with
  | red => exact absurd rfl h
  | black => rfl

/-- `enum Direction`. -/
inductive Direction where
  | left | right
  deriving DecidableEq, Repr

/-- `Direction::rev`. -/
def Direction.rev : Direction → Direction
  | .left => .right
  | .right => .left

/-- `NonNull<TreeNode<K, T>>`. -/
abbrev Ptr := Nat

/-- `struct TreeNode`. -/
structure TreeNode (K T : Type) where
  parent : Option Ptr
  left : Option Ptr
  right : Option Ptr
  color : Color
  key : K
  val : T
  deriving DecidableEq, Repr

/-- The nodes allocated so far. -/
abbrev Heap (K T : Type) := Arena (TreeNode K T)

end RbTree

/-- `struct RbTree`: the pointer to the root, and the heap its nodes are in. -/
structure RbTree (K T : Type) where
  val : Option RbTree.Ptr
  heap : RbTree.Heap K T
  deriving DecidableEq, Repr

namespace RbTree

variable {K T : Type}

/-! ## Reading and writing through pointers -/

/-- `ptr.as_ref()`. -/
def Heap.node (h : Heap K T) (p : Ptr) : Except Fault (TreeNode K T) :=
  match h.read p with
  | some n => .ok n
  | none => .error .dangling

/-- A write to fields of `ptr.as_mut()`. -/
def Heap.update (h : Heap K T) (p : Ptr) (f : TreeNode K T → TreeNode K T) : Except Fault (Heap K T) :=
  match h.read p with
  | some _ => .ok (h.modify p f)
  | none => .error .dangling

/-- `ptr.as_mut().color = color`. -/
def Heap.setColor (h : Heap K T) (p : Ptr) (color : Color) : Except Fault (Heap K T) :=
  h.update p fun n => { n with color := color }

/-- The fault of a failed `assert!` or `assert_eq!`. -/
def assertion : Fault := .panic "assertion failed"

/-- `TreeNode::get_sibling`. -/
def TreeNode.getSibling (n : TreeNode K T) (child : Ptr) : Except Fault (Option Ptr) :=
  if n.left = some child then .ok n.right
  else if n.right = some child then .ok n.left
  else .error assertion

/-- `TreeNode::child_dir`. -/
def TreeNode.childDir (n : TreeNode K T) (child : Ptr) : Except Fault Direction :=
  if n.left = some child then .ok .left
  else if n.right = some child then .ok .right
  else .error assertion

/-- `self.left = Some(node)` or `self.right = Some(node)`. -/
def TreeNode.setChild (n : TreeNode K T) (dir : Direction) (node : Ptr) : TreeNode K T :=
  match dir with
  | .left => { n with left := some node }
  | .right => { n with right := some node }

/-- The child pointer on a side. -/
def TreeNode.child (n : TreeNode K T) : Direction → Option Ptr
  | .left => n.left
  | .right => n.right

/-- The node with another child pointer on a side. -/
def TreeNode.putChild (n : TreeNode K T) (dir : Direction) (child : Option Ptr) : TreeNode K T :=
  match dir with
  | .left => { n with left := child }
  | .right => { n with right := child }

/-! ## Rotations -/

/-- `if let Some(child) = child { child.parent = parent }`: the inner child of a rotated node gets its new parent. -/
def Heap.adopt (h : Heap K T) (child parent : Option Ptr) : Except Fault (Heap K T) :=
  match child with
  | some child => h.update child fun n => { n with parent := parent }
  | none => .ok h

/-- `if let Some(new_parent) = new_parent { .. }`: the node above gets the child `this` in place of `parent`. -/
def Heap.relinkAbove (h : Heap K T) (newParent : Option Ptr) (parent this : Ptr) : Except Fault (Heap K T) := do
  match newParent with
  | some newParent =>
    let dir ← (← h.node newParent).childDir parent
    if dir = .left then h.update newParent fun n => { n with left := some this }
    else h.update newParent fun n => { n with right := some this }
  | none => .ok h

/-- `TreeNode::rot_left_par`. -/
def rotLeftPar (h : Heap K T) (this : Ptr) : Except Fault (Heap K T) := do
  let left := (← h.node this).left
  let h ← h.update this fun n => { n with left := n.parent }
  let h ← h.adopt left (← h.node this).parent
  match (← h.node this).parent with
  | some parent =>
    let dir ← (← h.node parent).childDir this
    if dir = .right then
      let h ← h.update parent fun n => { n with right := left }
      let newParent := (← h.node parent).parent
      let h ← h.update parent fun n => { n with parent := some this }
      let h ← h.update this fun n => { n with parent := newParent }
      h.relinkAbove newParent parent this
    else .error assertion
  | none =>
    let h ← h.update this fun n => { n with parent := none }
    if left.isNone then .ok h else .error assertion

/-- `TreeNode::rot_right_par`. The child pointer of the new parent is not written. -/
def rotRightPar (h : Heap K T) (this : Ptr) : Except Fault (Heap K T) := do
  let right := (← h.node this).right
  let h ← h.update this fun n => { n with right := n.parent }
  let h ← h.adopt right (← h.node this).parent
  match (← h.node this).parent with
  | some parent =>
    let h ← h.update parent fun n => { n with left := right }
    let newParent := (← h.node parent).parent
    let h ← h.update parent fun n => { n with parent := some this }
    h.update this fun n => { n with parent := newParent }
  | none => .ok h

/-- The `match` on a direction around the two rotations in `recolor_2`. -/
def rotate (h : Heap K T) (this : Ptr) : Direction → Except Fault (Heap K T)
  | .left => rotLeftPar h this
  | .right => rotRightPar h this

/-- `TreeNode::map_rotations`. -/
def mapRotations (parent child : Direction) : Direction × Option Direction :=
  if parent = child then (parent.rev, none) else (child.rev, some parent.rev)

/-! ## `TreeNode::recolor_2` -/

/-- How a round of the loop ends: with the next value of `curr`, or with a `break`. -/
inductive Round where
  | next (curr : Ptr)
  | done (curr : Ptr)
  deriving DecidableEq, Repr

/-- The branch of a red uncle: the parent and the uncle become black, and the grandparent red unless it is the root. -/
def recolorUncle (h : Heap K T) (curr parent gp uncle : Ptr) : Except Fault (Heap K T × Round) := do
  let h ← h.setColor parent .black
  let h ← h.setColor uncle .black
  if (← h.node gp).parent.isNone then .ok (h, .done curr)
  else
    let h ← h.setColor gp .red
    .ok (h, .next gp)

/-- The rotations of the other branch and the recolouring after them. -/
def rotateAndRecolor (h : Heap K T) (curr parent gp : Ptr) : Direction × Option Direction → Except Fault (Heap K T)
  | (rot, some nextRot) => do
    let h ← rotate h curr rot
    -- at this point curr is the parent of the previous parent, so it is rotated once more
    let h ← rotate h curr nextRot
    let h ← h.setColor curr .black
    let h ← h.setColor parent .red
    h.setColor gp .red
  | (rot, none) => do
    let h ← rotate h parent rot
    let h ← h.setColor gp .red
    h.setColor parent .black

/-- The end of a round with rotations: the loop goes on with the parent that `curr` has now. -/
def checkNext (h : Heap K T) (curr : Ptr) : Except Fault (Heap K T × Round) := do
  match (← h.node curr).parent with
  | some check => .ok (h, .next check)
  | none => .ok (h, .done curr)

/-- The branch of a black or missing uncle. -/
def rotateUncle (h : Heap K T) (curr parent gp : Ptr) : Except Fault (Heap K T × Round) := do
  let parentDir ← (← h.node gp).childDir parent
  let childDir ← (← h.node parent).childDir curr
  let h ← rotateAndRecolor h curr parent gp (mapRotations parentDir childDir)
  checkNext h curr

/-- One round of the loop of `recolor_2`, at `curr` with the parent `parent`. -/
def recolorRound (h : Heap K T) (curr parent : Ptr) : Except Fault (Heap K T × Round) := do
  if (← h.node parent).color = .black then .ok (h, .done curr)
  else
    match (← h.node parent).parent with
    | none => .error (.panic "weird state!")
    | some gp =>
      match ← (← h.node gp).getSibling parent with
      | some uncle =>
        if (← h.node uncle).color = .red then recolorUncle h curr parent gp uncle
        else rotateUncle h curr parent gp
      | none => rotateUncle h curr parent gp

/-- The loop of `recolor_2`: the heap and the value of `curr` after it. A round costs one unit of fuel. -/
def recolorLoop : Nat → Heap K T → Ptr → Except Fault (Heap K T × Ptr)
  | 0, h, curr => do
    match (← h.node curr).parent with
    | none => .ok (h, curr)
    | some _ => .error .outOfFuel
  | fuel + 1, h, curr => do
    match (← h.node curr).parent with
    | none => .ok (h, curr)
    | some parent =>
      match ← recolorRound h curr parent with
      | (h, .next curr) => recolorLoop fuel h curr
      | (h, .done curr) => .ok (h, curr)

/-- `TreeNode::recolor_2`. -/
def recolor2 (fuel : Nat) (t : RbTree K T) (node : Ptr) : Except Fault (RbTree K T) := do
  let (h, curr) ← recolorLoop fuel t.heap node
  -- check if node is root
  if (← h.node curr).parent.isNone then
    let h ← h.setColor curr .black
    .ok { val := some curr, heap := h }
  else .ok { t with heap := h }

/-! ## `TreeNode::remove_node` -/

/-- `&mut Option<NonNull<TreeNode<K, T>>>`: the pointer to the root, or the pointer to a child of a node. -/
inductive Place where
  | root
  | child (node : Ptr) (dir : Direction)
  deriving DecidableEq, Repr

/-- The pointer in a place. -/
def Place.get (t : RbTree K T) : Place → Except Fault (Option Ptr)
  | .root => .ok t.val
  | .child node dir => do
    let n ← t.heap.node node
    .ok (n.child dir)

/-- `slf.take()`; the pointer that was there is not used. -/
def Place.take (t : RbTree K T) : Place → Except Fault (RbTree K T)
  | .root => .ok { t with val := none }
  | .child node dir => do
    let h ← t.heap.update node fun n => n.putChild dir none
    .ok { t with heap := h }

/-- `mem::replace(node, child.as_ptr().read())`: the cell of the child is copied over the node's, with its parent pointer and colour. -/
def Heap.copyOver (h : Heap K T) (node child : Ptr) : Except Fault (Heap K T) := do
  let c ← h.node child
  h.update node fun _ => c

/-- The fault of `unwrap` on a `None`. -/
def unwrapNone : Fault := .panic "called Option::unwrap() on a None value"

/-- `TreeNode::remove_node`: the entry that was in the node of the place. A node with two children takes the entry of its left child, for
which that child gives up its own in the same way. -/
def removeNode : Nat → RbTree K T → Place → Except Fault (RbTree K T × Option (K × T))
  | 0, _, _ => .error .outOfFuel
  | fuel + 1, t, slf => do
    match ← slf.get t with
    | none => .ok (t, none)
    | some node =>
      let n ← t.heap.node node
      match n.left, n.right with
      | some left, none =>
        let h ← t.heap.copyOver node left
        .ok ({ t with heap := h }, some (n.key, n.val))
      | some left, some _ =>
        let l ← t.heap.node left
        let hasNoChildren := l.left.isNone && l.right.isNone
        match ← removeNode fuel t (.child node .left) with
        | (_, none) => .error unwrapNone
        | (t, some (otherKey, otherVal)) =>
          let n ← t.heap.node node
          let h ← t.heap.update node fun n => { n with key := otherKey, val := otherVal }
          let h ← if hasNoChildren then h.update node fun n => n.putChild .left none else .ok h
          .ok ({ t with heap := h }, some (n.key, n.val))
      | none, some right =>
        let h ← t.heap.copyOver node right
        .ok ({ t with heap := h }, some (n.key, n.val))
      | none, none =>
        let t ← slf.take t
        .ok (t, some (n.key, n.val))

/-! ## `RbTree` -/

/-- `RbTree::new`. -/
def new : RbTree K T := { val := none, heap := .empty }

section
variable [LinearOrder K]

/-- An insert of a node below `slf` on the side `dir`, where `slf` has no child: the node is allocated red (`alloc` says whether the
pointer is not null), linked both ways, and the tree is fixed up when `slf` is red. -/
def attach (fuel : Nat) (t : RbTree K T) (slf : Ptr) (dir : Direction) (key : K) (value : T) (alloc : Bool) :
    Except Fault (RbTree K T) := do
  if alloc then
    let node := t.heap.size
    let h : Heap K T := t.heap.alloc { parent := some slf, left := none, right := none, color := .red, key, val := value }
    let h ← h.update slf fun n => n.setChild dir node
    if (← h.node slf).color = .red then recolor2 fuel { t with heap := h } node
    else .ok { t with heap := h }
  else .ok t

/-- `TreeNode::insert`: the descent from `slf`, a node for a unit of fuel, and the attachment at its end. -/
def insertNode (loopFuel : Nat) : Nat → RbTree K T → Ptr → K → T → Bool → Except Fault (RbTree K T)
  | 0, _, _, _, _, _ => .error .outOfFuel
  | fuel + 1, t, slf, key, value, alloc => do
    let n ← t.heap.node slf
    match compare n.key key with
    | .lt =>
      match n.right with
      | some node => insertNode loopFuel fuel t node key value alloc
      | none => attach loopFuel t slf .right key value alloc
    | .eq => .error .keyPresent
    | .gt =>
      match n.left with
      | some node => insertNode loopFuel fuel t node key value alloc
      | none => attach loopFuel t slf .left key value alloc

/-- `RbTree::insert`. -/
def insert (t : RbTree K T) (key : K) (val : T) (alloc : Bool) : Except Fault (RbTree K T) :=
  match t.val with
  | none =>
    if alloc then
      .ok {
        val := some t.heap.size
        heap := t.heap.alloc { parent := none, left := none, right := none, color := .black, key, val } }
    else .ok t
  | some node => insertNode (t.heap.size + 1) (t.heap.size + 1) t node key val alloc

/-- What `TreeNode::remove` does where the child on a side holds the key: the node takes the entry that comes out of the child's place,
and its own old value is returned. -/
def takeOver (t : RbTree K T) (slf : Ptr) (dir : Direction) : Except Fault (RbTree K T × Option T) := do
  match ← removeNode (t.heap.size + 1) t (.child slf dir) with
  | (_, none) => .error unwrapNone
  | (t, some (key, value)) =>
    let n ← t.heap.node slf
    let h ← t.heap.update slf fun n => { n with key := key, val := value }
    .ok ({ t with heap := h }, some n.val)

/-- `TreeNode::remove`: the search goes to the left child where there is one, else to the right one, a node for a unit of fuel. -/
def TreeNode.remove (key : K) : Nat → RbTree K T → Ptr → Except Fault (RbTree K T × Option T)
  | 0, _, _ => .error .outOfFuel
  | fuel + 1, t, slf => do
    let n ← t.heap.node slf
    match n.left, n.right with
    | some left, _ =>
      if (← t.heap.node left).key = key then takeOver t slf .left else TreeNode.remove key fuel t left
    | none, some right =>
      if (← t.heap.node right).key = key then takeOver t slf .right else TreeNode.remove key fuel t right
    | none, none => .ok (t, none)

/-- `RbTree::remove`. -/
def remove (t : RbTree K T) (key : K) : Except Fault (RbTree K T × Option T) := do
  match t.val with
  | none => .ok (t, none)
  | some val =>
    if (← t.heap.node val).key = key then
      match ← removeNode (t.heap.size + 1) t .root with
      | (_, none) => .error unwrapNone
      | (t, some (_, value)) => .ok (t, some value)
    else TreeNode.remove key (t.heap.size + 1) t val

/-- `TreeNode::get`: the node, then its left subtree, then its right one, a unit of fuel for each level. -/
def getNode (key : K) : Nat → Heap K T → Option Ptr → Except Fault (Option T)
  | _, _, none => .ok none
  | 0, _, some _ => .error .outOfFuel
  | fuel + 1, h, some slf => do
    let n ← h.node slf
    if n.key = key then .ok (some n.val)
    else
      match ← getNode key fuel h n.left with
      | some val => .ok (some val)
      | none => getNode key fuel h n.right

/-- `RbTree::get`. -/
def get (t : RbTree K T) (key : K) : Except Fault (Option T) :=
  getNode key t.heap.size t.heap t.val

/-- `RbTree::contains`. -/
def contains (t : RbTree K T) (key : K) : Except Fault Bool := (t.get key).map (·.isSome)

end

/-! ## `Drop`

Nothing else is left to happen to the heap by then, so it is enough to say which nodes have been given back. A node that has is not
dereferenced and not given back again.
-/

/-- `ptr.as_ref()` where some nodes have been given back. -/
def Heap.live (h : Heap K T) (freed : List Ptr) (p : Ptr) : Except Fault (TreeNode K T) :=
  if p ∈ freed then .error .dangling else h.node p

/-- `dealloc` of a node. -/
def Heap.dealloc (h : Heap K T) (freed : List Ptr) (p : Ptr) : Except Fault (List Ptr) := do
  let _ ← h.live freed p
  .ok (freed ++ [p])

/-- `if let Some(node) = node { node.drop_in_place(); dealloc(node) }`, where `destroy` is what `Drop` of a node does. -/
def Heap.release (h : Heap K T) (destroy : List Ptr → Ptr → Except Fault (List Ptr)) (freed : List Ptr) :
    Option Ptr → Except Fault (List Ptr)
  | some node => do
    let freed ← destroy freed node
    h.dealloc freed node
  | none => .ok freed

/-- `TreeNode::destroy_children`. The key and the value of the node are dropped after it. -/
def destroyChildren (h : Heap K T) : Nat → List Ptr → Ptr → Except Fault (List Ptr)
  | 0, _, _ => .error .outOfFuel
  | fuel + 1, freed, slf => do
    let n ← h.live freed slf
    let freed ← h.release (destroyChildren h fuel) freed n.left
    h.release (destroyChildren h fuel) freed n.right

/-- `RbTree::drop`: the nodes that are given back, in order. -/
def drop (t : RbTree K T) : Except Fault (List Ptr) := t.heap.release (destroyChildren t.heap t.heap.size) [] t.val

end RbTree

end MiriWeirdness
