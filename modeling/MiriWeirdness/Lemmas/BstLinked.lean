import MiriWeirdness.Lemmas.BstBare

/-!
# Trees in memory

A shape is a tree as a value, with the address of every node. `Linked` says that the pointers of a heap lead through a shape, at distinct
addresses: it is what the tree of `BinarySearchTree` takes for granted. Lookups, removals and `Drop` are those of the red-black tree seen
through `bare`.
-/

namespace MiriWeirdness

variable {K T : Type}

namespace BstMemory

open BinaryTree BinarySearchTree

/-- A node of a shape. -/
structure Label (K T : Type) where
  ptr : Ptr
  entry : Entry K T
  deriving DecidableEq, Repr

abbrev Shape (K T : Type) := BinaryTree (Label K T)

/-- The cell of a label whose node has these children. -/
def Label.cell (a : Label K T) (left right : Option Ptr) : TreeNode K T := { left, right, key := a.entry.key, val := a.entry.val }

/-- The address of the root of a shape. -/
def root : Shape K T → Option Ptr
  | .nil => none
  | .node a _ _ => some a.ptr

/-- The addresses of a list of labels. -/
def ptrs (as : List (Label K T)) : List Ptr := as.map (·.ptr)

/-- The tree of `BinarySearchTree` with the entries of a shape. -/
def entries (s : Shape K T) : Slot K T := s.map (·.entry)

@[simp] theorem root_nil : root (.nil : Shape K T) = none := rfl
@[simp] theorem root_node (a : Label K T) (l r : Shape K T) : root (.node a l r) = some a.ptr := rfl
@[simp] theorem ptrs_nil : ptrs ([] : List (Label K T)) = [] := rfl
@[simp] theorem ptrs_cons (a : Label K T) (as : List (Label K T)) : ptrs (a :: as) = a.ptr :: ptrs as := rfl
@[simp] theorem ptrs_append (as bs : List (Label K T)) : ptrs (as ++ bs) = ptrs as ++ ptrs bs := List.map_append
@[simp] theorem entries_nil : entries (.nil : Shape K T) = .nil := rfl
@[simp] theorem entries_node (a : Label K T) (l r : Shape K T) : entries (.node a l r) = .node a.entry (entries l) (entries r) := rfl

theorem map_val_entries (s : Shape K T) : (entries s).inorder.map (·.val) = s.inorder.map (·.entry.val) := by
  rw [entries, inorder_map, List.map_map]
  rfl

/-- The pointers of the heap lead through the shape. -/
def Holds (h : Heap K T) : Shape K T → Prop
  | .nil => True
  | .node a l r => h.read a.ptr = some (a.cell (root l) (root r)) ∧ Holds h l ∧ Holds h r

/-- The pointers of the tree lead through the shape, at distinct addresses. -/
structure Linked (t : BstMemory K T) (s : Shape K T) : Prop where
  val : t.val = root s
  holds : Holds t.heap s
  nodup : (ptrs s.inorder).Nodup

/-! ## Shapes of bare nodes -/

/-- The label of a bare node. -/
def Label.ofRb (a : RbTree.Label K T) : Label K T := { ptr := a.ptr, entry := ⟨a.key, a.val⟩ }

/-- A label with a colour. -/
def Label.toRb (a : Label K T) : RbTree.Label K T := { ptr := a.ptr, color := .black, key := a.entry.key, val := a.entry.val }

/-- A node with a colour and a parent pointer. -/
def TreeNode.toRb (n : TreeNode K T) : RbTree.TreeNode K T :=
  { parent := none, left := n.left, right := n.right, color := .black, key := n.key, val := n.val }

/-- A red-black tree with these nodes. -/
def toRb (t : BstMemory K T) : RbTree K T := { val := t.val, heap := t.heap.image TreeNode.toRb }

theorem bare_toRb (t : BstMemory K T) : t.toRb.bare = t := by
  have hheap : t.toRb.bare.heap = t.heap := Arena.image_image (fun _ => rfl) t.heap
  exact congrArg (BstMemory.mk t.val) hheap

theorem root_ofRb (s : RbTree.Shape K T) : root (s.map Label.ofRb) = RbTree.root s := by
  cases s <;> rfl

theorem ptrs_ofRb (as : List (RbTree.Label K T)) : ptrs (as.map Label.ofRb) = RbTree.ptrs as := by
  rw [ptrs, List.map_map]
  rfl

theorem ptrs_toRb (s : Shape K T) : RbTree.ptrs (s.map Label.toRb).inorder = ptrs s.inorder := by
  rw [inorder_map, RbTree.ptrs, List.map_map]
  rfl

theorem entries_ofRb (s : RbTree.Shape K T) : entries (s.map Label.ofRb) = RbTree.slot s := (comp_map _ _ s).symm

theorem ofRb_toRb (s : Shape K T) : (s.map Label.toRb).map Label.ofRb = s := (comp_map _ _ s).symm.trans (id_map s)

theorem holds_ofRb {h : RbTree.Heap K T} {s : RbTree.Shape K T} (hs : RbTree.Hangs h s) : Holds h.bare (s.map Label.ofRb) := by
  induction s with
  | nil => trivial
  | node a l r ihl ihr =>
    obtain ⟨⟨parent, ha⟩, hl, hr⟩ := hs
    refine ⟨?_, ihl hl, ihr hr⟩
    rw [h.bare_read, root_ofRb, root_ofRb, show (Label.ofRb a).ptr = a.ptr from rfl, ha]
    rfl

theorem hangs_toRb {h : Heap K T} {s : Shape K T} (hs : Holds h s) : RbTree.Hangs (h.image TreeNode.toRb) (s.map Label.toRb) := by
  have hroot : ∀ s : Shape K T, RbTree.root (s.map Label.toRb) = root s := fun s => by cases s <;> rfl
  induction s with
  | nil => trivial
  | node a l r ihl ihr =>
    obtain ⟨ha, hl, hr⟩ := hs
    refine ⟨⟨none, ?_⟩, ihl hl, ihr hr⟩
    rw [Arena.read_image, hroot, hroot, show (Label.toRb a).ptr = a.ptr from rfl, ha]
    rfl

/-- What the child pointers of a red-black tree lead through, the pointers of the bare one do. -/
theorem linked_bare {t : RbTree K T} {s : RbTree.Shape K T} (h : RbTree.Hung t s) : Linked t.bare (s.map Label.ofRb) := by
  refine ⟨h.val.trans (root_ofRb s).symm, holds_ofRb h.hangs, ?_⟩
  rw [inorder_map, ptrs_ofRb]
  exact h.nodup

/-- A tree in memory is a red-black tree seen through `bare`. -/
theorem Linked.exists_hung {t : BstMemory K T} {s : Shape K T} (h : Linked t s) :
    ∃ r : RbTree K T, ∃ q : RbTree.Shape K T, r.bare = t ∧ q.map Label.ofRb = s ∧ RbTree.Hung r q := by
  refine ⟨t.toRb, s.map Label.toRb, bare_toRb t, ofRb_toRb s, ?_, hangs_toRb h.holds, ?_⟩
  · rw [← root_ofRb, ofRb_toRb]
    exact h.val
  · rw [ptrs_toRb]
    exact h.nodup

/-! ## Removals, lookups and `Drop` -/

/-- Writes change no number of nodes. -/
theorem Heap.update_size {h h' : Heap K T} {p : Ptr} {f : TreeNode K T → TreeNode K T} (hu : h.update p f = .ok h') : h'.size = h.size := by
  unfold Heap.update at hu
  cases hn : h.read p with
  | none =>
    rw [hn] at hu
    cases hu
  | some n =>
    rw [hn] at hu
    cases hu
    exact Arena.size_modify h p f

theorem Heap.copyOver_size {h h' : Heap K T} {node child : Ptr} (hc : h.copyOver node child = .ok h') : h'.size = h.size := by
  obtain ⟨c, -, hu⟩ := bind_eq_ok.mp hc
  exact Heap.update_size hu

theorem Place.put_size {t t' : BstMemory K T} {slf : Place} {ptr : Option Ptr} (hp : slf.put t ptr = .ok t') :
    t'.heap.size = t.heap.size := by
  cases slf with
  | root =>
    cases hp
    rfl
  | left node =>
    obtain ⟨h, hu, hp⟩ := bind_eq_ok.mp hp
    cases hp
    exact Heap.update_size hu
  | right node =>
    obtain ⟨h, hu, hp⟩ := bind_eq_ok.mp hp
    cases hp
    exact Heap.update_size hu

theorem removeNode_size {fuel : ℕ} {t t' : BstMemory K T} {slf : Place} {e : Option (K × T)} (hr : removeNode fuel t slf = .ok (t', e)) :
    t'.heap.size = t.heap.size := by
  induction fuel generalizing t t' slf e with
  | zero => cases hr
  | succ fuel ih =>
    unfold removeNode at hr
    obtain ⟨child, -, hr⟩ := bind_eq_ok.mp hr
    cases child with
    | none =>
      cases hr
      rfl
    | some node =>
      obtain ⟨n, -, hr⟩ := bind_eq_ok.mp hr
      obtain ⟨left, right, key, val⟩ := n
      cases left with
      | none =>
        cases right with
        | none =>
          obtain ⟨t₁, hput, hr⟩ := bind_eq_ok.mp hr
          cases hr
          exact Place.put_size hput
        | some right =>
          obtain ⟨h, hcopy, hr⟩ := bind_eq_ok.mp hr
          cases hr
          exact Heap.copyOver_size hcopy
      | some left =>
        cases right with
        | none =>
          obtain ⟨h, hcopy, hr⟩ := bind_eq_ok.mp hr
          cases hr
          exact Heap.copyOver_size hcopy
        | some right =>
          obtain ⟨l, -, hr⟩ := bind_eq_ok.mp hr
          obtain ⟨⟨t₁, other⟩, hrem, hr⟩ := bind_eq_ok.mp hr
          have hsize := ih hrem
          cases other with
          | none => cases hr
          | some other =>
            obtain ⟨n, -, hr⟩ := bind_eq_ok.mp hr
            obtain ⟨h, hset, hr⟩ := bind_eq_ok.mp hr
            have hsize₁ := (Heap.update_size hset).trans hsize
            dsimp only at hr
            split at hr
            · obtain ⟨h', hclear, hr⟩ := bind_eq_ok.mp hr
              cases hr
              exact (Heap.update_size hclear).trans hsize₁
            · cases hr
              exact hsize₁

theorem takeOver_size {t t' : BstMemory K T} {slf : Ptr} {child : Place} {v : Option T} (hr : takeOver t slf child = .ok (t', v)) :
    t'.heap.size = t.heap.size := by
  unfold takeOver at hr
  obtain ⟨⟨t₁, e⟩, hrem, hr⟩ := bind_eq_ok.mp hr
  cases e with
  | none => cases hr
  | some e =>
    obtain ⟨n, -, hr⟩ := bind_eq_ok.mp hr
    obtain ⟨h, hset, hr⟩ := bind_eq_ok.mp hr
    cases hr
    exact (Heap.update_size hset).trans (removeNode_size hrem)

section

variable [LinearOrder K]

theorem treeNode_remove_size {key : K} {fuel : ℕ} {t t' : BstMemory K T} {slf : Ptr} {v : Option T}
    (hr : TreeNode.remove key fuel t slf = .ok (t', v)) : t'.heap.size = t.heap.size := by
  induction fuel generalizing slf with
  | zero => cases hr
  | succ fuel ih =>
    unfold TreeNode.remove at hr
    obtain ⟨n, -, hr⟩ := bind_eq_ok.mp hr
    obtain ⟨left, right, key', val⟩ := n
    cases left with
    | some left =>
      obtain ⟨c, -, hr⟩ := bind_eq_ok.mp hr
      split at hr
      · exact takeOver_size hr
      · exact ih hr
    | none =>
      cases right with
      | some right =>
        obtain ⟨c, -, hr⟩ := bind_eq_ok.mp hr
        split at hr
        · exact takeOver_size hr
        · exact ih hr
      | none =>
        cases hr
        rfl

/-- A removal frees no node. -/
theorem remove_size {t t' : BstMemory K T} {key : K} {v : Option T} (hr : t.remove key = .ok (t', v)) : t'.heap.size = t.heap.size := by
  unfold remove at hr
  cases hval : t.val with
  | none =>
    rw [hval] at hr
    cases hr
    rfl
  | some val =>
    rw [hval] at hr
    obtain ⟨n, -, hr⟩ := bind_eq_ok.mp hr
    split at hr
    · obtain ⟨⟨t₁, e⟩, hrem, hr⟩ := bind_eq_ok.mp hr
      cases e with
      | none => cases hr
      | some e =>
        cases hr
        exact removeNode_size hrem
    · exact treeNode_remove_size hr

variable {t : BstMemory K T} {s : Shape K T}

theorem Linked.get (h : Linked t s) (key : K) : t.get key = .ok (BinarySearchTree.get key (entries s)) := by
  obtain ⟨r, q, rfl, rfl, hung⟩ := h.exists_hung
  rw [r.bare_get, hung.get, entries_ofRb]

/-- A removal. -/
theorem Linked.remove (h : Linked t s) (key : K) :
    ∃ t' s', t.remove key = .ok (t', (BinarySearchTree.remove key (entries s)).1) ∧ Linked t' s' ∧
      (BinarySearchTree.remove key (entries s)).2 = entries s' ∧ t'.heap.size = t.heap.size ∧
      RbTree.CutOff (BinarySearchTree.remove key (entries s)).1.toList.length (ptrs s.inorder) (ptrs s'.inorder) := by
  obtain ⟨r, q, rfl, rfl, hung⟩ := h.exists_hung
  obtain ⟨r', q', hrem, hung', hslot, hcut⟩ := hung.remove key
  have hbare : r.bare.remove key = .ok (r'.bare, (BinarySearchTree.remove key (RbTree.slot q)).1) := by
    rw [r.bare_remove, hrem]
    rfl
  refine ⟨r'.bare, q'.map Label.ofRb, ?_, linked_bare hung', ?_, remove_size hbare, ?_⟩
  · rw [entries_ofRb]
    exact hbare
  · rw [entries_ofRb, entries_ofRb]
    exact hslot
  · rw [entries_ofRb, inorder_map, inorder_map, ptrs_ofRb, ptrs_ofRb]
    exact hcut

end

theorem Linked.drop {t : BstMemory K T} {s : Shape K T} (h : Linked t s) : t.drop = .ok (ptrs s.postorder) := by
  obtain ⟨r, q, rfl, rfl, hung⟩ := h.exists_hung
  rw [r.bare_drop, hung.drop, postorder_map, ptrs_ofRb]

end BstMemory

end MiriWeirdness
