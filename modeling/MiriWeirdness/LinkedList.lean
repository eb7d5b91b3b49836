import MiriWeirdness.Faults

/-!
# The linked list

`linked_list.rs`. A node owns the nodes behind it, and a list is its first node. A caller edits a list through a mutable reference to the
list or to a node of it; it gets one from `next_mut` or from `insert`, and holds one at a time. Such a reference is the number of nodes
before the one it points to, `depth`. A reference to no node is the fault `dangling`, which no run shows.
-/

namespace MiriWeirdness

/-- `struct LinkedListNode`. -/
structure LinkedListNode (T : Type) where
  val : T
  next : Option (LinkedListNode T)

/-- `struct LinkedList`. -/
structure LinkedList (T : Type) where
  node : LinkedListNode T

variable {T : Type}

/-- `Option::insert`: what was there is dropped. -/
def optionInsert {α : Type} (_ : Option α) (value : α) : Option α := some value

namespace LinkedListNode

/-- `LinkedListNode::new`. -/
def new (val : T) : LinkedListNode T := { val, next := none }

/-- `LinkedListNode::to_list`. -/
def toList (self : LinkedListNode T) : LinkedList T := { node := self }

/-- `LinkedListNode::insert`, the node it leaves. The reference it returns points to the next node, which is there in both branches. -/
def insert (self : LinkedListNode T) (val : T) : LinkedListNode T :=
  if self.next.isSome then { self with next := optionInsert self.next (new val) }
  else { self with next := some (new val) }

/-- `LinkedListNode::contains`. -/
def contains [BEq T] (val : T) : LinkedListNode T → Bool
  | { val := v, next := none } => if v == val then true else false
  | { val := v, next := some next } => if v == val then true else next.contains val

/-- The node that a reference points to. -/
def node? : ℕ → LinkedListNode T → Option (LinkedListNode T)
  | 0, self => some self
  | depth + 1, self => self.next.bind (node? depth)

/-- The list after a change of the node that a reference points to. -/
def modify (f : LinkedListNode T → LinkedListNode T) : ℕ → LinkedListNode T → Except Fault (LinkedListNode T)
  | 0, self => .ok (f self)
  | depth + 1, self =>
    match self.next with
    | none => .error .dangling
    | some next => do
      let next' ← modify f depth next
      .ok { self with next := some next' }

/-- The values from a node on. -/
def values : LinkedListNode T → List T
  | { val, next := none } => [val]
  | { val, next := some next } => val :: next.values

end LinkedListNode

namespace LinkedList

/-- `LinkedList::new`. -/
def new (val : T) : LinkedList T := (LinkedListNode.new val).toList

/-- `LinkedList::insert`. -/
def insert (self : LinkedList T) (val : T) : LinkedList T := { node := self.node.insert val }

/-- `LinkedList::contains`. -/
def contains [BEq T] (self : LinkedList T) (val : T) : Bool := self.node.contains val

/-- The values of a list. -/
def values (self : LinkedList T) : List T := self.node.values

/-- What the caller of a list does: take a reference to the list, follow `next_mut` if there is a next node, call `insert`. -/
inductive Call (T : Type) where
  | list
  | nextMut
  | insert (val : T)
  deriving DecidableEq, Repr

/-- A list and the reference to a node of it that its caller holds. -/
structure Session (T : Type) where
  list : LinkedList T
  depth : ℕ

namespace Session

/-- The caller has the list. -/
def start (list : LinkedList T) : Session T := { list, depth := 0 }

/-- The node that the reference points to. -/
def node? (s : Session T) : Option (LinkedListNode T) := s.list.node.node? s.depth

/-- One call. -/
def step (s : Session T) : Call T → Except Fault (Session T)
  | .list => .ok (start s.list)
  | .nextMut =>
    match s.node? with
    | none => .error .dangling
    | some node =>
      match node.next with
      | none => .ok s
      | some _ => .ok { s with depth := s.depth + 1 }
  | .insert val => do
    let node ← s.list.node.modify (·.insert val) s.depth
    .ok { list := node.toList, depth := s.depth + 1 }

end Session

end LinkedList

end MiriWeirdness
