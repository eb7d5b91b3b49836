import Mathlib.Order.Compare
import MiriWeirdness.Faults
import MiriWeirdness.Library.Runs
import MiriWeirdness.Library.Trees

/-!
# The binary search tree

`binary_search_tree.rs`. A slot `Option<NonNull<TreeNode<K, T>>>` is the tree of the entries below it: no two slots reach the same
node, so a node overwritten by a bitwise copy of its only child is that child's tree, and the child's old node is only leaked. The
keys are mirrored: a greater key goes to the left.
-/

namespace MiriWeirdness

namespace BinarySearchTree

/-- The key and the value of a node. -/
structure Entry (K T : Type*) where
  key : K
  val : T
  deriving DecidableEq, Repr

/-- `Option<NonNull<TreeNode<K, T>>>`: the tree below a slot. -/
abbrev Slot (K T : Type*) := BinaryTree (Entry K T)

variable {K T : Type*}

/-- `BinarySearchTree::new`. -/
def new : Slot K T := .nil

/-- An allocation and the write of a fresh node, in a slot that was empty: `alloc` says whether the pointer is not null. -/
def place (alloc : Bool) (key : K) (val : T) : Slot K T :=
  if alloc then .node ⟨key, val⟩ .nil .nil else .nil

section
variable [LinearOrder K]

/-- `BinarySearchTree::insert`, and `TreeNode::insert` on the node of a slot that is not empty. -/
def insert (alloc : Bool) (key : K) (val : T) : Slot K T → Except Fault (Slot K T)
  | .nil => .ok (place alloc key val)
  | .node e left right =>
    match compare e.key key with
    | .lt => (insert alloc key val left).map fun left => .node e left right
    | .eq => .error .keyPresent
    | .gt => (insert alloc key val right).map fun right => .node e left right

/-- `TreeNode::remove_node`: the entry taken out of the slot's root, and the slot. -/
def removeNode : Slot K T → Option (Entry K T × Slot K T)
  | .nil => none
  | .node e (.node le ll lr) .nil => some (e, .node le ll lr)
  | .node e (.node le ll lr) (.node re rl rr) => do
    let hasNoChildren := ll.isNil && lr.isNil
    let (other, left) ← removeNode (.node le ll lr)
    -- the root takes the entry of the left child's root, and the left slot is cleared when that child was a leaf
    some (e, .node other (if hasNoChildren then .nil else left) (.node re rl rr))
  | .node e .nil (.node re rl rr) => some (e, .node re rl rr)
  | .node e .nil .nil => some (e, .nil)

/-- What `TreeNode::remove` does where the child in `slot` holds the key: the node takes the key and the value that come out of the
child's slot, and its own old value is returned. The `unwrap` of `remove_node` does not fail, the slot holds a node. -/
def takeOver (e : Entry K T) (slot : Slot K T) : Option T × Entry K T × Slot K T :=
  match removeNode slot with
  | some (other, slot) => (some e.val, other, slot)
  | none => (none, e, slot)

/-- `TreeNode::remove`: the node's left child if it has one, else its right child. -/
def TreeNode.remove (key : K) : Slot K T → Option T × Slot K T
  | .nil => (none, .nil)
  | .node e (.node le ll lr) right =>
    if le.key = key then
      let (ret, e, left) := takeOver e (.node le ll lr)
      (ret, .node e left right)
    else
      let (ret, left) := TreeNode.remove key (.node le ll lr)
      (ret, .node e left right)
  | .node e .nil (.node re rl rr) =>
    if re.key = key then
      let (ret, e, right) := takeOver e (.node re rl rr)
      (ret, .node e .nil right)
    else
      let (ret, right) := TreeNode.remove key (.node re rl rr)
      (ret, .node e .nil right)
  | .node e .nil .nil => (none, .node e .nil .nil)

/-- `BinarySearchTree::remove`. -/
def remove (key : K) (t : Slot K T) : Option T × Slot K T :=
  match t with
  | .nil => (none, .nil)
  | .node e left right =>
    if e.key = key then
      match removeNode (.node e left right) with
      | some (other, t) => (some other.val, t)
      | none => (none, .node e left right)
    else TreeNode.remove key (.node e left right)

/-- `TreeNode::get`, the whole subtree: the node, then its left subtree, then its right one. -/
def get (key : K) : Slot K T → Option T
  | .nil => none
  | .node e left right =>
    if e.key = key then some e.val
    else
      match get key left with
      | some val => some val
      | none => get key right

/-- `BinarySearchTree::contains`. -/
def contains (key : K) (t : Slot K T) : Bool := (get key t).isSome

/-- The keys of the entries of a tree, in order. -/
def keys (t : Slot K T) : List K := t.inorder.map (·.key)

/-! ## Runs -/

/-- A call on the tree; an insert comes with the answer of the allocator. -/
inductive Op (K T : Type*) where
  | insert (alloc : Bool) (key : K) (val : T)
  | remove (key : K)

/-- The state after a call. -/
def step (t : Slot K T) : Op K T → Except Fault (Slot K T)
  | .insert alloc key val => insert alloc key val t
  | .remove key => .ok (remove key t).2

end

end BinarySearchTree

end MiriWeirdness
