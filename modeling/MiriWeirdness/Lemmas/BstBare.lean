import MiriWeirdness.BstMemory
import MiriWeirdness.Lemmas.RbChildren

/-!
# Removals in memory

`rb_tree.rs` and `binary_search_tree.rs` remove, look up and drop with the same code, which neither reads nor sets a colour or a parent
pointer by itself. So the one on the bare nodes is the other seen through `bare`, in whatever state the heap is.
-/

namespace MiriWeirdness

variable {K T : Type}

/-- What follows on a call of which a function is taken. -/
theorem bind_map {α β γ : Type} (x : Except Fault α) (f : α → β) (g : β → Except Fault γ) : (x.map f >>= g) = x >>= fun a => g (f a) := by
  cases x <;> rfl

/-- A function of what a call returns after another. -/
theorem map_bind {α β γ : Type} (x : Except Fault α) (f : β → γ) (g : α → Except Fault β) : (x >>= g).map f = x >>= fun a => (g a).map f := by
  cases x <;> rfl

namespace RbTree

/-- A node without its colour and its parent pointer. -/
def TreeNode.bare (n : TreeNode K T) : BstMemory.TreeNode K T := { left := n.left, right := n.right, key := n.key, val := n.val }

/-- The nodes of a heap without their colours and parent pointers. -/
def Heap.bare (h : Heap K T) : BstMemory.Heap K T := h.image TreeNode.bare

/-- The tree of the nodes without their colours and parent pointers. -/
def bare (t : RbTree K T) : BstMemory K T := { val := t.val, heap := t.heap.bare }

/-- The same place. -/
def Place.bare : Place → BstMemory.Place
  | .root => .root
  | .child node .left => .left node
  | .child node .right => .right node

theorem heap_bare (t : RbTree K T) : t.bare.heap = t.heap.bare := rfl

@[simp] theorem Heap.bare_size (h : Heap K T) : h.bare.size = h.size := Arena.size_image _ _

theorem Heap.bare_read (h : Heap K T) (p : Ptr) : h.bare.read p = (h.read p).map TreeNode.bare := Arena.read_image _ _ _

theorem Heap.bare_node (h : Heap K T) (p : Ptr) : h.bare.node p = (h.node p).map TreeNode.bare := by
  unfold BstMemory.Heap.node Heap.node
  rw [h.bare_read]
  cases h.read p <;> rfl

/-- A write to fields that a bare node has. -/
theorem Heap.bare_update {f : TreeNode K T → TreeNode K T} {g : BstMemory.TreeNode K T → BstMemory.TreeNode K T}
    (hfg : ∀ n, (f n).bare = g n.bare) (h : Heap K T) (p : Ptr) : h.bare.update p g = (h.update p f).map Heap.bare := by
  unfold BstMemory.Heap.update Heap.update
  rw [h.bare_read]
  cases h.read p with
  | none => rfl
  | some n => exact congrArg Except.ok (Arena.image_modify hfg h p).symm

theorem Heap.bare_copyOver (h : Heap K T) (node child : Ptr) : h.bare.copyOver node child = (h.copyOver node child).map Heap.bare := by
  unfold BstMemory.Heap.copyOver Heap.copyOver
  rw [h.bare_node]
  cases h.node child with
  | error e => rfl
  | ok c => exact Heap.bare_update (fun _ => rfl) h node

theorem Place.bare_get (slf : Place) (t : RbTree K T) : slf.bare.get t.bare = slf.get t := by
  cases slf with
  | root => rfl
  | child node dir =>
    have hnode := t.heap.bare_node node
    cases dir <;>
    · simp only [Place.bare, BstMemory.Place.get, Place.get, RbTree.bare, hnode]
      cases t.heap.node node <;> rfl

theorem Place.bare_take (slf : Place) (t : RbTree K T) : slf.bare.put t.bare none = (slf.take t).map RbTree.bare := by
  cases slf with
  | root => rfl
  | child node dir =>
    cases dir with
    | left =>
      have hupdate := Heap.bare_update (f := fun n => n.putChild .left none) (g := fun n => { n with left := none }) (fun _ => rfl) t.heap node
      simp only [Place.bare, BstMemory.Place.put, Place.take, RbTree.bare, hupdate]
      cases t.heap.update node _ <;> rfl
    | right =>
      have hupdate := Heap.bare_update (f := fun n => n.putChild .right none) (g := fun n => { n with right := none }) (fun _ => rfl) t.heap node
      simp only [Place.bare, BstMemory.Place.put, Place.take, RbTree.bare, hupdate]
      cases t.heap.update node _ <;> rfl

/-- What a call on a red-black tree returns, with the bare tree. -/
def bareResult {α : Type} (r : RbTree K T × α) : BstMemory K T × α := (r.1.bare, r.2)

/-- The calls on a tree, on the bare one. -/
theorem bare_removeNode (fuel : ℕ) (t : RbTree K T) (slf : Place) :
    BstMemory.removeNode fuel t.bare slf.bare = (removeNode fuel t slf).map bareResult := by
  induction fuel generalizing t slf with
  | zero => rfl
  | succ fuel ih =>
    unfold BstMemory.removeNode removeNode
    rw [slf.bare_get, map_bind]
    refine bind_congr fun child => ?_
    cases child with
    | none => rfl
    | some node =>
      dsimp only
      rw [t.heap_bare, t.heap.bare_node, bind_map, map_bind]
      refine bind_congr fun n => ?_
      obtain ⟨parent, left, right, color, key, val⟩ := n
      cases left with
      | none =>
        cases right with
        | none =>
          simp only [TreeNode.bare, slf.bare_take, bind_map, map_bind]
          rfl
        | some right =>
          simp only [TreeNode.bare, t.heap.bare_copyOver, bind_map, map_bind]
          rfl
      | some left =>
        cases right with
        | none =>
          simp only [TreeNode.bare, t.heap.bare_copyOver, bind_map, map_bind]
          rfl
        | some right =>
          have hrem := ih t (.child node .left)
          simp only [Place.bare] at hrem
          simp only [TreeNode.bare, t.heap.bare_node, hrem, bind_map, map_bind]
          refine bind_congr fun l => bind_congr fun r => ?_
          obtain ⟨t', entry⟩ := r
          cases entry with
          | none => rfl
          | some entry =>
            obtain ⟨otherKey, otherVal⟩ := entry
            have hentry := fun h : Heap K T => h.bare_update (f := fun n => { n with key := otherKey, val := otherVal })
              (g := fun n => { n with key := otherKey, val := otherVal }) (fun _ => rfl) node
            have hclear := fun h : Heap K T => h.bare_update (f := fun n => n.putChild .left none) (g := fun n => { n with left := none })
              (fun _ => rfl) node
            simp only [bareResult, t'.heap_bare, Heap.bare_node, hentry, bind_map, map_bind]
            refine bind_congr fun n => bind_congr fun h => ?_
            simp only [hclear]
            split
            · rw [bind_map, map_bind]
              rfl
            · rfl

theorem bare_takeOver (t : RbTree K T) (slf : Ptr) (dir : Direction) :
    BstMemory.takeOver t.bare slf (Place.child slf dir).bare = (takeOver t slf dir).map bareResult := by
  unfold BstMemory.takeOver takeOver
  rw [t.heap_bare, t.heap.bare_size, bare_removeNode, bind_map, map_bind]
  refine bind_congr fun r => ?_
  obtain ⟨t', entry⟩ := r
  cases entry with
  | none => rfl
  | some entry =>
    obtain ⟨key, value⟩ := entry
    have hentry := t'.heap.bare_update (f := fun n => { n with key := key, val := value }) (g := fun n => { n with key := key, val := value })
      (fun _ => rfl) slf
    simp only [bareResult, t'.heap_bare, Heap.bare_node, hentry, bind_map, map_bind]
    rfl

section

variable [LinearOrder K]

theorem bare_treeNode_remove (key : K) (fuel : ℕ) (t : RbTree K T) (slf : Ptr) :
    BstMemory.TreeNode.remove key fuel t.bare slf = (TreeNode.remove key fuel t slf).map bareResult := by
  induction fuel generalizing t slf with
  | zero => rfl
  | succ fuel ih =>
    unfold BstMemory.TreeNode.remove TreeNode.remove
    rw [t.heap_bare, t.heap.bare_node, bind_map, map_bind]
    refine bind_congr fun n => ?_
    obtain ⟨parent, left, right, color, key', val⟩ := n
    have hchild : ∀ (dir : Direction) (child : Ptr),
        (t.heap.bare.node child >>= fun c => if c.key = key then BstMemory.takeOver t.bare slf (Place.child slf dir).bare
          else BstMemory.TreeNode.remove key fuel t.bare child) =
        (t.heap.node child >>= fun c => if c.key = key then takeOver t slf dir else TreeNode.remove key fuel t child).map bareResult := by
      intro dir child
      rw [t.heap.bare_node, bind_map, map_bind, bare_takeOver, ih]
      refine bind_congr fun c => ?_
      rw [apply_ite (Except.map bareResult)]
      rfl
    cases left with
    | some left => exact hchild .left left
    | none =>
      cases right with
      | some right => exact hchild .right right
      | none => rfl

/-- `remove` of the one tree is `remove` of the other, whatever the state of the heap. -/
theorem bare_remove (t : RbTree K T) (key : K) : BstMemory.remove t.bare key = (remove t key).map bareResult := by
  unfold BstMemory.remove remove
  rw [show t.bare.val = t.val from rfl]
  cases t.val with
  | none => rfl
  | some val =>
    dsimp only
    rw [t.heap_bare, t.heap.bare_node, bind_map, map_bind, t.heap.bare_size, bare_treeNode_remove]
    refine bind_congr fun n => ?_
    rw [apply_ite (Except.map bareResult)]
    refine if_congr Iff.rfl ?_ rfl
    rw [show BstMemory.Place.root = Place.root.bare from rfl, bare_removeNode, bind_map, map_bind]
    refine bind_congr fun r => ?_
    obtain ⟨t', entry⟩ := r
    cases entry <;> rfl

theorem bare_getNode (key : K) (fuel : ℕ) (h : Heap K T) (slf : Option Ptr) :
    BstMemory.getNode key fuel h.bare slf = getNode key fuel h slf := by
  induction fuel generalizing slf with
  | zero => cases slf <;> rfl
  | succ fuel ih =>
    cases slf with
    | none => rfl
    | some slf =>
      unfold BstMemory.getNode getNode
      rw [h.bare_node, bind_map]
      refine bind_congr fun n => ?_
      simp only [ih]
      rfl

/-- `get` of the one tree is `get` of the other. -/
theorem bare_get (t : RbTree K T) (key : K) : t.bare.get key = t.get key := by
  unfold BstMemory.get RbTree.get
  rw [t.heap_bare, t.heap.bare_size]
  exact bare_getNode key _ _ _

end

theorem Heap.bare_live (h : Heap K T) (freed : List Ptr) (p : Ptr) : h.bare.live freed p = (h.live freed p).map TreeNode.bare := by
  unfold BstMemory.Heap.live Heap.live
  rw [h.bare_node, apply_ite (Except.map TreeNode.bare)]
  rfl

theorem Heap.bare_dealloc (h : Heap K T) (freed : List Ptr) (p : Ptr) : h.bare.dealloc freed p = h.dealloc freed p := by
  unfold BstMemory.Heap.dealloc Heap.dealloc
  rw [h.bare_live, bind_map]

theorem Heap.bare_release (h : Heap K T) {destroy destroy' : List Ptr → Ptr → Except Fault (List Ptr)} (hd : destroy = destroy')
    (freed : List Ptr) (node : Option Ptr) : h.bare.release destroy freed node = h.release destroy' freed node := by
  subst hd
  cases node with
  | none => rfl
  | some node =>
    unfold BstMemory.Heap.release Heap.release
    simp only [h.bare_dealloc]

theorem bare_destroyChildren (h : Heap K T) (fuel : ℕ) : BstMemory.destroyChildren h.bare fuel = destroyChildren h fuel := by
  induction fuel with
  | zero => rfl
  | succ fuel ih =>
    funext freed slf
    unfold BstMemory.destroyChildren destroyChildren
    rw [h.bare_live, bind_map]
    refine bind_congr fun n => ?_
    simp only [h.bare_release ih]
    rfl

/-- `Drop` of the one tree gives back what `Drop` of the other does. -/
theorem bare_drop (t : RbTree K T) : t.bare.drop = t.drop := by
  unfold BstMemory.drop RbTree.drop
  rw [t.heap_bare, t.heap.bare_size]
  exact t.heap.bare_release (bare_destroyChildren _ _) _ _

end RbTree

end MiriWeirdness
