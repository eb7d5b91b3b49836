import Mathlib.Order.Compare
import MiriWeirdness.Faults
import MiriWeirdness.Library.Arena

/-!
# The binary search tree in memory

`binary_search_tree.rs` once more, with its pointers: a node is a cell of a heap, a slot is a place that holds a pointer, and a removal
copies cells bit by bit. `BinarySearchTree` takes a slot for the tree below it; here nothing keeps two slots from the same node but what
the code does. A dereference of an address that holds no node, or of one that was given back, is the fault `dangling`. No node is freed
before `Drop`. The recursions are run with fuel, one unit for each level.
-/

namespace MiriWeirdness

namespace BstMemory

/-- `NonNull<TreeNode<K, T>>`. -/
abbrev Ptr := Nat

/-- `struct TreeNode`. -/
structure TreeNode (K T : Type) where
  left : Option Ptr
  right : Option Ptr
  key : K
  val : T
  deriving DecidableEq, Repr

/-- The nodes allocated so far. -/
abbrev Heap (K T : Type) := Arena (TreeNode K T)

end BstMemory

/-- `struct BinarySearchTree`: the pointer to the root, and the heap its nodes are in. -/
structure BstMemory (K T : Type) where
  val : Option BstMemory.Ptr
  heap : BstMemory.Heap K T
  deriving DecidableEq, Repr

namespace BstMemory

variable {K T : Type}

/-! ## Pointers and places -/

/-- `ptr.as_ref()`. -/
def Heap.node (h : Heap K T) (p : Ptr) : Except Fault (TreeNode K T) :=
  match h.read p with
  | some n => .ok n
  | none => .error .dangling

/-- A write to fields of `ptr.as_mut()`. -/
def Heap.update (h : Heap K T) (p : Ptr) (f : TreeNode K T → TreeNode K T) : Except Fault (Heap K T) :=
  match h.read p with
  | some _ => .ok (h.modify p f)
  | none => .error .dangling

/-- `&mut Option<NonNull<TreeNode<K, T>>>`: the pointer to the root, or to a child of a node. -/
inductive Place where
  | root
  | left (node : Ptr)
  | right (node : Ptr)
  deriving DecidableEq, Repr

/-- The pointer in a place. -/
def Place.get (t : BstMemory K T) : Place → Except Fault (Option Ptr)
  | .root => .ok t.val
  | .left node => do
    let n ← t.heap.node node
    .ok n.left
  | .right node => do
    let n ← t.heap.node node
    .ok n.right

/-- A write of the pointer in a place. -/
def Place.put (t : BstMemory K T) (ptr : Option Ptr) : Place → Except Fault (BstMemory K T)
  | .root => .ok { t with val := ptr }
  | .left node => do
    let h ← t.heap.update node fun n => { n with left := ptr }
    .ok { t with heap := h }
  | .right node => do
    let h ← t.heap.update node fun n => { n with right := ptr }
    .ok { t with heap := h }

/-- `mem::replace(node, child.as_ptr().read())`. -/
def Heap.copyOver (h : Heap K T) (node child : Ptr) : Except Fault (Heap K T) := do
  let c ← h.node child
  h.update node fun _ => c

/-- The fault of `unwrap` on a `None`. -/
def unwrapNone : Fault := .panic "called Option::unwrap() on a None value"

/-! ## The operations -/

/-- `BinarySearchTree::new`. -/
def new : BstMemory K T := { val := none, heap := .empty }

/-- An allocation, the write of a fresh node and of the pointer to it in an empty place: `alloc` says whether the pointer is not null. -/
def plant (t : BstMemory K T) (slf : Place) (alloc : Bool) (key : K) (val : T) : Except Fault (BstMemory K T) :=
  if alloc then
    let node := t.heap.size
    slf.put { t with heap := t.heap.alloc { left := none, right := none, key, val } } (some node)
  else .ok t

/-- `TreeNode::remove_node`. -/
def removeNode : Nat → BstMemory K T → Place → Except Fault (BstMemory K T × Option (K × T))
  | 0, _, _ => .error .outOfFuel
  | fuel + 1, t, slf => do
    match ← slf.get t with
    | none => .ok (t, none)
    | some node =>
      let n ← t.heap.node node
      match n.left, n.right with
      | some left, none =>
        let h ← t.heap.copyOver node left
        .ok ({ t with heap := h }, some (n.key, n.val))
      | some left, some _ =>
        let l ← t.heap.node left
        let hasNoChildren := l.left.isNone && l.right.isNone
        match ← removeNode fuel t (.left node) with
        | (_, none) => .error unwrapNone
        | (t, some (otherKey, otherVal)) =>
          let n ← t.heap.node node
          let h ← t.heap.update node fun n => { n with key := otherKey, val := otherVal }
          let h ← if hasNoChildren then h.update node fun n => { n with left := none } else .ok h
          .ok ({ t with heap := h }, some (n.key, n.val))
      | none, some right =>
        let h ← t.heap.copyOver node right
        .ok ({ t with heap := h }, some (n.key, n.val))
      | none, none =>
        let t ← slf.put t none
        .ok (t, some (n.key, n.val))

section
variable [LinearOrder K]

/-- `TreeNode::insert`. -/
def insertNode (key : K) (value : T) (alloc : Bool) : Nat → BstMemory K T → Ptr → Except Fault (BstMemory K T)
  | 0, _, _ => .error .outOfFuel
  | fuel + 1, t, slf => do
    let n ← t.heap.node slf
    match compare n.key key with
    | .lt =>
      match n.left with
      | some node => insertNode key value alloc fuel t node
      | none => plant t (.left slf) alloc key value
    | .eq => .error .keyPresent
    | .gt =>
      match n.right with
      | some node => insertNode key value alloc fuel t node
      | none => plant t (.right slf) alloc key value

/-- `BinarySearchTree::insert`. -/
def insert (t : BstMemory K T) (alloc : Bool) (key : K) (val : T) : Except Fault (BstMemory K T) :=
  match t.val with
  | none => plant t .root alloc key val
  | some node => insertNode key val alloc (t.heap.size + 1) t node

/-- What `TreeNode::remove` does where the child in a place holds the key. -/
def takeOver (t : BstMemory K T) (slf : Ptr) (child : Place) : Except Fault (BstMemory K T × Option T) := do
  match ← removeNode (t.heap.size + 1) t child with
  | (_, none) => .error unwrapNone
  | (t, some (key, value)) =>
    let n ← t.heap.node slf
    let h ← t.heap.update slf fun n => { n with key := key, val := value }
    .ok ({ t with heap := h }, some n.val)

/-- `TreeNode::remove`. -/
def TreeNode.remove (key : K) : Nat → BstMemory K T → Ptr → Except Fault (BstMemory K T × Option T)
  | 0, _, _ => .error .outOfFuel
  | fuel + 1, t, slf => do
    let n ← t.heap.node slf
    match n.left, n.right with
    | some left, _ =>
      if (← t.heap.node left).key = key then takeOver t slf (.left slf) else TreeNode.remove key fuel t left
    | none, some right =>
      if (← t.heap.node right).key = key then takeOver t slf (.right slf) else TreeNode.remove key fuel t right
    | none, none => .ok (t, none)

/-- `BinarySearchTree::remove`. -/
def remove (t : BstMemory K T) (key : K) : Except Fault (BstMemory K T × Option T) := do
  match t.val with
  | none => .ok (t, none)
  | some val =>
    if (← t.heap.node val).key = key then
      match ← removeNode (t.heap.size + 1) t .root with
      | (_, none) => .error unwrapNone
      | (t, some (_, value)) => .ok (t, some value)
    else TreeNode.remove key (t.heap.size + 1) t val

/-- `TreeNode::get`. -/
def getNode (key : K) : Nat → Heap K T → Option Ptr → Except Fault (Option T)
  | _, _, none => .ok none
  | 0, _, some _ => .error .outOfFuel
  | fuel + 1, h, some slf => do
    let n ← h.node slf
    if n.key = key then .ok (some n.val)
    else
      match ← getNode key fuel h n.left with
      | some val => .ok (some val)
      | none => getNode key fuel h n.right

/-- `BinarySearchTree::get`. -/
def get (t : BstMemory K T) (key : K) : Except Fault (Option T) := getNode key t.heap.size t.heap t.val

/-- `BinarySearchTree::contains`. -/
def contains (t : BstMemory K T) (key : K) : Except Fault Bool := (t.get key).map (·.isSome)

end

/-! ## `Drop` -/

/-- `ptr.as_ref()` where some nodes have been given back. -/
def Heap.live (h : Heap K T) (freed : List Ptr) (p : Ptr) : Except Fault (TreeNode K T) :=
  if p ∈ freed then .error .dangling else h.node p

/-- `dealloc` of a node. -/
def Heap.dealloc (h : Heap K T) (freed : List Ptr) (p : Ptr) : Except Fault (List Ptr) := do
  let _ ← h.live freed p
  .ok (freed ++ [p])

/-- `if let Some(node) = node { node.drop_in_place(); dealloc(node) }`, where `destroy` is what `Drop` of a node does. -/
def Heap.release (h : Heap K T) (destroy : List Ptr → Ptr → Except Fault (List Ptr)) (freed : List Ptr) :
    Option Ptr → Except Fault (List Ptr)
  | some node => do
    let freed ← destroy freed node
    h.dealloc freed node
  | none => .ok freed

/-- `TreeNode::destroy_children`. The key and the value of the node are dropped after it. -/
def destroyChildren (h : Heap K T) : Nat → List Ptr → Ptr → Except Fault (List Ptr)
  | 0, _, _ => .error .outOfFuel
  | fuel + 1, freed, slf => do
    let n ← h.live freed slf
    let freed ← h.release (destroyChildren h fuel) freed n.left
    h.release (destroyChildren h fuel) freed n.right

/-- `BinarySearchTree::drop`: the nodes that are given back, in order. -/
def drop (t : BstMemory K T) : Except Fault (List Ptr) := t.heap.release (destroyChildren t.heap t.heap.size) [] t.val

end BstMemory

end MiriWeirdness
