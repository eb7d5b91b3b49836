import MiriWeirdness.Lemmas.BstEntries
import MiriWeirdness.Lemmas.RbRemove

/-!
# The tree below the child pointers

`remove` and `get` follow the child pointers only. So what they do can be said of trees whose parent pointers and colours are whatever
earlier removals have made of them: they find, take out and return what `binary_search_tree.rs` does on the same entries.
-/

namespace MiriWeirdness.RbTree

open BinaryTree

variable {K T : Type}

/-! ## Trees that hang together -/

/-- The child pointers of the heap lead through the shape. -/
def Hangs (h : Heap K T) : Shape K T → Prop
  | .nil => True
  | .node a l r => (∃ parent, h.read a.ptr = some (a.cell parent (root l) (root r))) ∧ Hangs h l ∧ Hangs h r

/-- The same entries in a binary search tree. -/
def slot (s : Shape K T) : BinarySearchTree.Slot K T := s.map fun a => ⟨a.key, a.val⟩

@[simp] theorem slot_nil : slot (.nil : Shape K T) = .nil := rfl
@[simp] theorem slot_node (a : Label K T) (l r : Shape K T) : slot (.node a l r) = .node ⟨a.key, a.val⟩ (slot l) (slot r) := rfl

theorem map_val_slot (s : Shape K T) : (slot s).inorder.map (·.val) = s.inorder.map (·.val) := by
  rw [slot, inorder_map, List.map_map]
  rfl

theorem Holds.hangs {h : Heap K T} {parent : Option Ptr} {s : Shape K T} (hs : Holds h parent s) : Hangs h s := by
  induction s generalizing parent with
  | nil => trivial
  | node a l r ihl ihr =>
    obtain ⟨ha, hl, hr⟩ := hs
    exact ⟨⟨parent, ha⟩, ihl hl, ihr hr⟩

/-- A shape hangs together in every heap that agrees on its addresses. -/
theorem Hangs.congr {h h' : Heap K T} {s : Shape K T} (hs : Hangs h s) (hr : ∀ p ∈ ptrs s.inorder, h'.read p = h.read p) :
    Hangs h' s := by
  induction s with
  | nil => trivial
  | node a l r ihl ihr =>
    obtain ⟨⟨parent, ha⟩, hl, hrt⟩ := hs
    refine ⟨⟨parent, ?_⟩, ihl hl fun p hp => hr p ?_, ihr hrt fun p hp => hr p ?_⟩
    · rw [hr a.ptr (by simp), ha]
    · simp [hp]
    · simp [hp]

theorem Hangs.lt_size {h : Heap K T} {s : Shape K T} (hs : Hangs h s) : ∀ p ∈ ptrs s.inorder, p < h.size := by
  induction s with
  | nil => simp
  | node a l r ihl ihr =>
    obtain ⟨⟨parent, ha⟩, hl, hr⟩ := hs
    intro p hp
    simp only [inorder_node, ptrs_append, ptrs_cons, List.mem_append, List.mem_cons] at hp
    rcases hp with hp | rfl | hp
    · exact ihl hl p hp
    · exact Arena.lt_size_of_read ha
    · exact ihr hr p hp

/-- A shape has no more nodes than the heap. -/
theorem Hangs.numNodes_le {h : Heap K T} {s : Shape K T} (hs : Hangs h s) (hd : (ptrs s.inorder).Nodup) : s.numNodes ≤ h.size := by
  have hsub : ptrs s.inorder ⊆ List.range h.size := fun p hp => List.mem_range.mpr (hs.lt_size p hp)
  have hle := (List.subperm_of_subset hd hsub).length_le
  rwa [ptrs, List.length_map, inorder_length, List.length_range] at hle

/-! ## Cutting nodes off -/

/-- So many of the addresses are not reached any more. -/
def CutOff (n : ℕ) (ps ps' : List Ptr) : Prop := ∃ cut : List Ptr, (cut ++ ps').Perm ps ∧ cut.length = n

theorem CutOff.refl (ps : List Ptr) : CutOff 0 ps ps := ⟨[], List.Perm.refl _, rfl⟩

theorem CutOff.trans {m n : ℕ} {ps ps' ps'' : List Ptr} (h : CutOff m ps ps') (h' : CutOff n ps' ps'') : CutOff (m + n) ps ps'' := by
  obtain ⟨cut, hp, rfl⟩ := h
  obtain ⟨cut', hp', rfl⟩ := h'
  refine ⟨cut ++ cut', ?_, List.length_append⟩
  rw [List.append_assoc]
  exact (hp'.append_left cut).trans hp

theorem CutOff.subset {n : ℕ} {ps ps' : List Ptr} (h : CutOff n ps ps') : ps' ⊆ ps := by
  obtain ⟨cut, hp, -⟩ := h
  intro p hp'
  exact hp.subset (List.mem_append_right cut hp')

theorem CutOff.nodup {n : ℕ} {ps ps' : List Ptr} (h : CutOff n ps ps') (hd : ps.Nodup) : ps'.Nodup := by
  obtain ⟨cut, hp, -⟩ := h
  exact (List.nodup_append.mp (hp.nodup_iff.mpr hd)).2.1

/-- Addresses cut off on one side of others. -/
theorem CutOff.append {n : ℕ} {ps ps' : List Ptr} (h : CutOff n ps ps') (before after : List Ptr) :
    CutOff n (before ++ ps ++ after) (before ++ ps' ++ after) := by
  obtain ⟨cut, hp, hlen⟩ := h
  refine ⟨cut, ?_, hlen⟩
  have hswap : (cut ++ (before ++ ps' ++ after)).Perm (before ++ (cut ++ ps') ++ after) := by
    simp only [List.append_assoc]
    rw [← List.append_assoc cut, ← List.append_assoc before cut]
    exact List.perm_append_comm.append_right _
  exact hswap.trans ((hp.append_left before).append_right after)

theorem CutOff.left {n : ℕ} {a a' : Label K T} {l l' r : Shape K T} (h : CutOff n (ptrs l.inorder) (ptrs l'.inorder)) (ha : a'.ptr = a.ptr) :
    CutOff n (ptrs (BinaryTree.node a l r).inorder) (ptrs (BinaryTree.node a' l' r).inorder) := by
  simpa [ha] using h.append [] (a.ptr :: ptrs r.inorder)

theorem CutOff.right {n : ℕ} {a a' : Label K T} {l r r' : Shape K T} (h : CutOff n (ptrs r.inorder) (ptrs r'.inorder)) (ha : a'.ptr = a.ptr) :
    CutOff n (ptrs (BinaryTree.node a l r).inorder) (ptrs (BinaryTree.node a' l r').inorder) := by
  simpa [ha] using h.append (ptrs l.inorder ++ [a.ptr]) []

/-! ## `remove_node` -/

/-- The place was written, with this pointer, and no node but those at these addresses was. -/
def Place.Put (slf : Place) (t t' : RbTree K T) (child : Option Ptr) (inside : List Ptr) : Prop :=
  match slf with
  | .root => t'.val = child ∧ ∀ q, q ∉ inside → t'.heap.read q = t.heap.read q
  | .child p dir =>
    t'.val = t.val ∧ t'.heap.read p = (t.heap.read p).map (fun n => n.putChild dir child) ∧
      ∀ q, q ∉ inside → q ≠ p → t'.heap.read q = t.heap.read q

/-- The place is not in a node at one of these addresses. -/
def Place.Outside (slf : Place) (inside : List Ptr) : Prop := ∀ p dir, slf = .child p dir → p ∉ inside

theorem Place.get_child_eq_ok {t : RbTree K T} {p : Ptr} {dir : Direction} {child : Option Ptr} :
    (Place.child p dir).get t = .ok child ↔ ∃ n, t.heap.read p = some n ∧ n.child dir = child := by
  cases hn : t.heap.read p with
  | none => simp [Place.get, Heap.node, hn]
  | some n => simp [Place.get, Heap.node, hn]

theorem TreeNode.putChild_child (n : TreeNode K T) (dir : Direction) : n.putChild dir (n.child dir) = n := by
  cases dir <;> rfl

/-- The place keeps its pointer. -/
theorem Place.put_same {slf : Place} {t t' : RbTree K T} {child : Option Ptr} {inside : List Ptr} (hget : slf.get t = .ok child)
    (hout : slf.Outside inside) (hval : t'.val = t.val) (hread : ∀ q, q ∉ inside → t'.heap.read q = t.heap.read q) :
    slf.Put t t' child inside := by
  cases slf with
  | root =>
    cases hget
    exact ⟨hval, hread⟩
  | child p dir =>
    obtain ⟨n, hn, rfl⟩ := Place.get_child_eq_ok.mp hget
    refine ⟨hval, ?_, fun q hq _ => hread q hq⟩
    rw [hread p (hout p dir rfl), hn, Option.map_some, TreeNode.putChild_child]

/-- The pointer in the place is taken out. -/
theorem Place.put_take {slf : Place} {t : RbTree K T} {child : Option Ptr} (inside : List Ptr) (hget : slf.get t = .ok child) :
    ∃ t', slf.take t = .ok t' ∧ slf.Put t t' none inside := by
  cases slf with
  | root => exact ⟨{ t with val := none }, rfl, rfl, fun _ _ => rfl⟩
  | child p dir =>
    obtain ⟨n, hn, -⟩ := Place.get_child_eq_ok.mp hget
    refine ⟨{ t with heap := t.heap.modify p fun n => n.putChild dir none }, ?_, rfl, ?_, ?_⟩
    · simp [Place.take, Heap.update_eq _ hn]
    · exact (Arena.read_modify _ _ _ _).trans (if_pos rfl)
    · intro q _ hq
      exact (Arena.read_modify _ _ _ _).trans (if_neg hq)

/-- What `remove_node` does to the tree in a place whose root is this node: it gives out the node's entry, leaves in the place what
`binary_search_tree.rs` leaves of the same entries, cuts one node off, and writes nothing outside of the tree but the place. -/
structure Removed (t t' : RbTree K T) (slf : Place) (s s' : Shape K T) : Prop where
  hangs : Hangs t'.heap s'
  cutOff : CutOff 1 (ptrs s.inorder) (ptrs s'.inorder)
  put : slf.Put t t' (root s') (ptrs s.inorder)

section

variable {t : RbTree K T} {slf : Place} {a b c : Label K T} {l r ll lr rl rr : Shape K T} {fuel : Nat}

/-- The cell of a child is copied over the node's, whose child is the other's in its place. -/
theorem Hangs.copyOver (hs : Hangs t.heap (.node a l r)) (hd : (ptrs (BinaryTree.node a l r).inorder).Nodup)
    (hget : slf.get t = .ok (some a.ptr)) (hout : slf.Outside (ptrs (BinaryTree.node a l r).inorder))
    (honly : l = .node b ll lr ∧ r = .nil ∨ l = .nil ∧ r = .node b ll lr) :
    ∃ h', t.heap.copyOver a.ptr b.ptr = .ok h' ∧
      Removed t { t with heap := h' } slf (.node a l r) (.node { b with ptr := a.ptr } ll lr) := by
  obtain ⟨hl, hr, hal, har, hdisj⟩ := nodup_map_node hd
  obtain ⟨⟨parent, ha⟩, hsl, hsr⟩ := hs
  obtain ⟨hsb, hab, hdb, hcut⟩ : Hangs t.heap (.node b ll lr) ∧ a.ptr ∉ ptrs (BinaryTree.node b ll lr).inorder ∧
      (ptrs (BinaryTree.node b ll lr).inorder).Nodup ∧
      (ptrs (BinaryTree.node a l r).inorder).Perm (a.ptr :: ptrs (BinaryTree.node b ll lr).inorder) := by
    rcases honly with ⟨rfl, rfl⟩ | ⟨rfl, rfl⟩
    · exact ⟨hsl, hal, hl, by simpa using List.perm_append_singleton a.ptr (ptrs (BinaryTree.node b ll lr).inorder)⟩
    · exact ⟨hsr, har, hr, by simp⟩
  obtain ⟨⟨parent', hb⟩, hsll, hslr⟩ := hsb
  have hread : ∀ q, (t.heap.modify a.ptr fun _ => b.cell parent' (root ll) (root lr)).read q =
      if q = a.ptr then some (b.cell parent' (root ll) (root lr)) else t.heap.read q := by
    intro q
    rw [Arena.read_modify]
    split
    · rename_i hq
      rw [hq, ha]
      rfl
    · rfl
  have hkeep : ∀ q ∈ ptrs (BinaryTree.node b ll lr).inorder,
      (t.heap.modify a.ptr fun _ => b.cell parent' (root ll) (root lr)).read q = t.heap.read q := by
    intro q hq
    rw [hread, if_neg]
    rintro rfl
    exact hab hq
  refine ⟨t.heap.modify a.ptr fun _ => b.cell parent' (root ll) (root lr), ?_, ⟨?_, ?_, ?_⟩⟩
  · simp [Heap.copyOver, Heap.node_eq hb, Heap.update_eq _ ha]
  · refine ⟨⟨parent', ?_⟩, hsll.congr fun q hq => hkeep q ?_, hslr.congr fun q hq => hkeep q ?_⟩
    · rw [hread, if_pos rfl]
      rfl
    · simp [hq]
    · simp [hq]
  · refine ⟨[b.ptr], ?_, rfl⟩
    refine List.Perm.trans ?_ hcut.symm
    simp only [inorder_node, ptrs_append, ptrs_cons, List.singleton_append]
    rw [List.perm_iff_count]
    intro q
    simp only [List.count_append, List.count_cons]
    omega
  · refine Place.put_same hget hout rfl fun q hq => ?_
    rw [hread, if_neg]
    rintro rfl
    exact hq (by simp)

/-- A leaf is cut off. -/
theorem Hangs.take (hget : slf.get t = .ok (some a.ptr)) : ∃ t', slf.take t = .ok t' ∧ Removed t t' slf (.node a .nil .nil) .nil := by
  obtain ⟨t', htake, hput⟩ := Place.put_take (ptrs (BinaryTree.node a .nil .nil).inorder) hget
  exact ⟨t', htake, trivial, ⟨[a.ptr], List.Perm.refl _, rfl⟩, hput⟩

/-- A node with two children takes the entry that its left child has given up, and its left pointer is cleared once more when that child
was a leaf. -/
theorem Removed.takeEntry {t₁ : RbTree K T} {l' : Shape K T} (hs : Hangs t.heap (.node a (.node b ll lr) r))
    (hd : (ptrs (BinaryTree.node a (.node b ll lr) r).inorder).Nodup) (hget : slf.get t = .ok (some a.ptr))
    (hout : slf.Outside (ptrs (BinaryTree.node a (.node b ll lr) r).inorder))
    (h : Removed t t₁ (.child a.ptr .left) (.node b ll lr) l') :
    ∃ t', (do
      let n ← t₁.heap.node a.ptr
      let h ← t₁.heap.update a.ptr fun n => { n with key := b.key, val := b.val }
      let h ← if ll.isNil && lr.isNil then h.update a.ptr fun n => n.putChild .left none else .ok h
      .ok ({ t₁ with heap := h }, some (n.key, n.val))) = (.ok (t', some a.entry) : Except Fault (RbTree K T × Option (K × T))) ∧
        Removed t t' slf (.node a (.node b ll lr) r) (.node (a.withEntry b.entry) l' r) := by
  obtain ⟨-, -, hal, har, hdisj⟩ := nodup_map_node hd
  obtain ⟨⟨parent, ha⟩, hsl, hsr⟩ := hs
  obtain ⟨hval, hchild, hrest⟩ := h.put
  have ha₁ : t₁.heap.read a.ptr = some (a.cell parent (root l') (root r)) := by
    rw [hchild, ha]
    rfl
  have hleaf : ll.isNil && lr.isNil → l' = .nil := by
    intro hnil
    rw [Bool.and_eq_true, isNil_iff, isNil_iff] at hnil
    obtain ⟨rfl, rfl⟩ := hnil
    obtain ⟨cut, hp, hlen⟩ := h.cutOff
    have hlen' := hp.length_eq
    cases l' with
    | nil => rfl
    | node c rl rr =>
      simp [hlen] at hlen'
  obtain ⟨h', heq, hread⟩ : ∃ h' : Heap K T, (do
      let h ← t₁.heap.update a.ptr fun n => { n with key := b.key, val := b.val }
      if ll.isNil && lr.isNil then h.update a.ptr fun n => n.putChild .left none else .ok h) = .ok h' ∧
        ∀ q, h'.read q = if q = a.ptr then some ((a.withEntry b.entry).cell parent (root l') (root r)) else t₁.heap.read q := by
    rw [Heap.update_eq _ ha₁, ok_bind]
    have hread₂ : ∀ q, (t₁.heap.modify a.ptr fun n => { n with key := b.key, val := b.val }).read q =
        if q = a.ptr then some ((a.withEntry b.entry).cell parent (root l') (root r)) else t₁.heap.read q := by
      intro q
      rw [Arena.read_modify]
      split
      · rename_i hq
        rw [hq, ha₁]
        rfl
      · rfl
    split
    · rename_i hnil
      obtain rfl := hleaf hnil
      have ha₂ := (hread₂ a.ptr).trans (if_pos rfl)
      refine ⟨_, Heap.update_eq _ ha₂, fun q => ?_⟩
      rw [Arena.read_modify, hread₂]
      split
      · rfl
      · rfl
    · exact ⟨_, rfl, hread₂⟩
  have hkeep : ∀ q, q ∉ ptrs (BinaryTree.node b ll lr).inorder → q ≠ a.ptr → h'.read q = t.heap.read q := by
    intro q hq hne
    rw [hread, if_neg hne, hrest q hq hne]
  refine ⟨{ t₁ with heap := h' }, ?_, ⟨⟨parent, ?_⟩, ?_, ?_⟩, h.cutOff.left rfl, ?_⟩
  · rw [Heap.node_eq ha₁, ok_bind]
    obtain ⟨h₂, hset, hclear⟩ := bind_eq_ok.mp heq
    rw [hset, ok_bind]
    by_cases hnil : ll.isNil && lr.isNil
    · rw [if_pos hnil] at hclear ⊢
      rw [hclear]
      rfl
    · rw [if_neg hnil] at hclear ⊢
      cases hclear
      rfl
  · exact (hread a.ptr).trans (if_pos rfl)
  · refine h.hangs.congr fun q hq => ?_
    rw [hread, if_neg]
    rintro rfl
    exact hal (h.cutOff.subset hq)
  · refine hsr.congr fun q hq => hkeep q (fun hql => hdisj q hql hq) ?_
    rintro rfl
    exact har hq
  · refine Place.put_same hget hout hval fun q hq => hkeep q ?_ ?_
    · intro hql
      exact hq (by simp only [inorder_node, ptrs_append, List.mem_append] at hql ⊢; exact Or.inl hql)
    · rintro rfl
      exact hq (by simp)

/-- `remove_node` takes out of a tree that hangs together what it takes out of a binary search tree with the same entries. The induction is
on the left spine. -/
theorem removeNode_hangs (hs : Hangs t.heap (.node a l r)) (hd : (ptrs (BinaryTree.node a l r).inorder).Nodup)
    (hget : slf.get t = .ok (some a.ptr)) (hout : slf.Outside (ptrs (BinaryTree.node a l r).inorder))
    (hfuel : (BinaryTree.node a l r).numNodes ≤ fuel) :
    ∃ t' s', removeNode fuel t slf = .ok (t', some a.entry) ∧ Removed t t' slf (.node a l r) s' ∧
      BinarySearchTree.removeNode (slot (.node a l r)) = some (⟨a.key, a.val⟩, slot s') := by
  induction l generalizing a r slf fuel with
  | nil =>
    simp only [numNodes] at hfuel
    obtain ⟨fuel, rfl⟩ := Nat.exists_eq_add_of_le' (by omega : 1 ≤ fuel)
    obtain ⟨parent, ha⟩ := hs.1
    cases r with
    | nil =>
      obtain ⟨t', htake, hrem⟩ := Hangs.take hget
      refine ⟨t', .nil, ?_, hrem, rfl⟩
      simp [removeNode, hget, Heap.node_eq ha, Label.cell, htake, Label.entry]
    | node c rl rr =>
      obtain ⟨h', hcopy, hrem⟩ := hs.copyOver hd hget hout (Or.inr ⟨rfl, rfl⟩)
      refine ⟨_, _, ?_, hrem, BinarySearchTree.removeNode_nil_left _ _⟩
      simp [removeNode, hget, Heap.node_eq ha, Label.cell, hcopy, Label.entry]
  | node b ll lr ih _ =>
    simp only [numNodes] at hfuel
    obtain ⟨fuel, rfl⟩ := Nat.exists_eq_add_of_le' (by omega : 1 ≤ fuel)
    obtain ⟨parent, ha⟩ := hs.1
    have hsl := hs.2.1
    cases r with
    | nil =>
      obtain ⟨h', hcopy, hrem⟩ := hs.copyOver hd hget hout (Or.inl ⟨rfl, rfl⟩)
      refine ⟨_, _, ?_, hrem, BinarySearchTree.removeNode_nil_right _ _⟩
      simp [removeNode, hget, Heap.node_eq ha, Label.cell, hcopy, Label.entry]
    | node c rl rr =>
      obtain ⟨hdl, -, hal, -⟩ := nodup_map_node hd
      have hgetl : (Place.child a.ptr .left).get t = .ok (some b.ptr) := Place.get_child_eq_ok.mpr ⟨_, ha, rfl⟩
      have houtl : (Place.child a.ptr .left).Outside (ptrs (BinaryTree.node b ll lr).inorder) := by
        rintro p dir ⟨⟩
        exact hal
      obtain ⟨t₁, l', hrem₁, hremoved, hslot⟩ := ih hsl hdl hgetl houtl (by simp only [numNodes]; omega : (BinaryTree.node b ll lr).numNodes ≤ fuel)
      obtain ⟨t', heq, hremoved'⟩ := hremoved.takeEntry hs hd hget hout
      refine ⟨t', _, ?_, hremoved', ?_⟩
      · obtain ⟨parent', hb⟩ := hsl.1
        have hroot : ∀ s : Shape K T, (root s).isNone = s.isNil := fun s => by cases s <;> rfl
        have hb := Heap.node_eq hb
        simp only [removeNode, hget, root_node, ok_bind, Heap.node_eq ha, Label.cell] at hb ⊢
        simp only [hb, hrem₁, ok_bind, hroot, Label.entry]
        exact heq
      · exact BinarySearchTree.removeNode_two hslot

end

/-! ## `remove` and `get` -/

/-- What a removal does below a node: the node stays where it is, and only nodes of the tree are written. -/
structure Rewritten (t t' : RbTree K T) (n : ℕ) (s s' : Shape K T) : Prop where
  hangs : Hangs t'.heap s'
  root_eq : root s' = root s
  cutOff : CutOff n (ptrs s.inorder) (ptrs s'.inorder)
  val : t'.val = t.val
  rest : ∀ q, q ∉ ptrs s.inorder → t'.heap.read q = t.heap.read q

section

variable {t t' : RbTree K T} {a b : Label K T} {l r bl br c' : Shape K T} {n : ℕ}

/-- The cell of the node of a frame, with this pointer where its subtree is. -/
theorem Hangs.frame {h : Heap K T} {f : Frame (Label K T)} {s : Shape K T} (hs : Hangs h (f.fill s)) :
    (∃ n, h.read f.label.ptr = some n ∧ n.child (side f) = root s) ∧ Hangs h s := by
  cases f with
  | left a r =>
    obtain ⟨⟨parent, ha⟩, hsl, -⟩ := hs
    exact ⟨⟨_, ha, rfl⟩, hsl⟩
  | right l a =>
    obtain ⟨⟨parent, ha⟩, -, hsr⟩ := hs
    exact ⟨⟨_, ha, rfl⟩, hsr⟩

theorem CutOff.fill {s s' : Shape K T} (h : CutOff n (ptrs s.inorder) (ptrs s'.inorder)) (f : Frame (Label K T)) :
    CutOff n (ptrs (f.fill s).inorder) (ptrs (f.fill s').inorder) := by
  cases f with
  | left a r => exact h.left rfl
  | right l a => exact h.right rfl

/-- The subtree of a frame was rewritten, and the pointer to it in the node of the frame. -/
theorem Hangs.fill {h h' : Heap K T} {f : Frame (Label K T)} {s s' : Shape K T} (hs : Hangs h (f.fill s))
    (hd : (ptrs (f.fill s).inorder).Nodup) (hs' : Hangs h' s')
    (hchild : h'.read f.label.ptr = (h.read f.label.ptr).map fun n => n.putChild (side f) (root s'))
    (hrest : ∀ q, q ∉ ptrs s.inorder → q ≠ f.label.ptr → h'.read q = h.read q) : Hangs h' (f.fill s') := by
  obtain ⟨-, -, hfs, hdisj⟩ := nodup_map_fill hd
  have hsib : ∀ q ∈ ptrs f.sibling.inorder, h'.read q = h.read q := by
    intro q hq
    refine hrest q (hdisj q hq) ?_
    rintro rfl
    exact hfs hq
  cases f with
  | left a r =>
    obtain ⟨⟨parent, ha⟩, -, hsr⟩ := hs
    exact ⟨⟨parent, by rw [show h'.read a.ptr = _ from hchild, show h.read (Frame.left a r).label.ptr = _ from ha]; rfl⟩, hs', hsr.congr hsib⟩
  | right l a =>
    obtain ⟨⟨parent, ha⟩, hsl, -⟩ := hs
    exact ⟨⟨parent, by rw [show h'.read a.ptr = _ from hchild, show h.read (Frame.right l a).label.ptr = _ from ha]; rfl⟩, hsl.congr hsib, hs'⟩

/-- The subtree of a frame was rewritten below its root. -/
theorem Rewritten.fill {f : Frame (Label K T)} {s s' : Shape K T} (hs : Hangs t.heap (f.fill s)) (hd : (ptrs (f.fill s).inorder).Nodup)
    (h : Rewritten t t' n s s') : Rewritten t t' n (f.fill s) (f.fill s') := by
  obtain ⟨-, hfs, -⟩ := nodup_map_fill hd
  obtain ⟨⟨m, hm, hchild⟩, -⟩ := hs.frame
  refine ⟨hs.fill hd h.hangs ?_ fun q hq _ => h.rest q hq, (root_fill f s').trans (root_fill f s).symm, h.cutOff.fill f, h.val, ?_⟩
  · rw [h.rest _ hfs, hm, Option.map_some, h.root_eq, ← hchild, TreeNode.putChild_child]
  · intro q hq
    exact h.rest q fun hqs => hq (mem_map_fill.mpr (Or.inr (Or.inl hqs)))

/-- `remove_node` at a child of a node. -/
theorem Removed.rewritten {f : Frame (Label K T)} {s s' : Shape K T} (hs : Hangs t.heap (f.fill s)) (hd : (ptrs (f.fill s).inorder).Nodup)
    (h : Removed t t' (.child f.label.ptr (side f)) s s') : Rewritten t t' 1 (f.fill s) (f.fill s') := by
  obtain ⟨hval, hchild, hrest⟩ := h.put
  refine ⟨hs.fill hd h.hangs hchild hrest, (root_fill f s').trans (root_fill f s).symm, h.cutOff.fill f, hval, ?_⟩
  intro q hq
  refine hrest q (fun hqs => hq (mem_map_fill.mpr (Or.inr (Or.inl hqs)))) fun hqf => hq (mem_map_fill.mpr (Or.inl hqf))

/-- A write of a key and a value to the root. -/
theorem Rewritten.setEntry {s' : Shape K T} (kv : K × T) (hd : (ptrs (BinaryTree.node a l r).inorder).Nodup)
    (h : Rewritten t t' n s' (.node a l r)) (hsub : ptrs (BinaryTree.node a l r).inorder ⊆ ptrs s'.inorder) :
    ∃ h', t'.heap.update a.ptr (fun n => { n with key := kv.1, val := kv.2 }) = .ok h' ∧
      Rewritten t { t' with heap := h' } n s' (.node (a.withEntry kv) l r) := by
  obtain ⟨-, -, hal, har, -⟩ := nodup_map_node hd
  obtain ⟨⟨parent, ha⟩, hsl, hsr⟩ := h.hangs
  have hptrs : ptrs (BinaryTree.node (a.withEntry kv) l r).inorder = ptrs (BinaryTree.node a l r).inorder := by
    simp [Label.withEntry]
  refine ⟨_, Heap.update_eq _ ha, ⟨⟨parent, ?_⟩, ?_, ?_⟩, h.root_eq, by rw [hptrs]; exact h.cutOff, h.val, ?_⟩
  · change (t'.heap.modify a.ptr _).read a.ptr = _
    rw [Arena.read_modify, if_pos rfl, ha]
    rfl
  · refine hsl.congr fun q hq => ?_
    rw [Arena.read_modify, if_neg]
    rintro rfl
    exact hal hq
  · refine hsr.congr fun q hq => ?_
    rw [Arena.read_modify, if_neg]
    rintro rfl
    exact har hq
  · intro q hq
    rw [Arena.read_modify, if_neg]
    · exact h.rest q hq
    · rintro rfl
      exact hq (hsub (by simp))

/-- A node takes the entry that its child gives up, and its own old value is returned. -/
theorem takeOver_hangs {f : Frame (Label K T)} (hs : Hangs t.heap (f.fill (.node b bl br)))
    (hd : (ptrs (f.fill (.node b bl br)).inorder).Nodup) :
    ∃ t' s', takeOver t f.label.ptr (side f) = .ok (t', some f.label.val) ∧
      Rewritten t t' 1 (f.fill (.node b bl br)) (plug (withEntry b.entry [f]) s') ∧
      BinarySearchTree.removeNode (slot (.node b bl br)) = some (⟨b.key, b.val⟩, slot s') := by
  obtain ⟨hdb, hfs, -⟩ := nodup_map_fill hd
  obtain ⟨⟨m, hm, hchild⟩, hsb⟩ := hs.frame
  have hget : (Place.child f.label.ptr (side f)).get t = .ok (some b.ptr) := Place.get_child_eq_ok.mpr ⟨m, hm, hchild⟩
  have hout : (Place.child f.label.ptr (side f)).Outside (ptrs (BinaryTree.node b bl br).inorder) := by
    rintro p dir ⟨⟩
    exact hfs
  obtain ⟨t₁, s', hrem, hremoved, hslot⟩ := removeNode_hangs hsb hdb hget hout (Nat.le_succ_of_le (hsb.numNodes_le hdb))
  have h₁ := hremoved.rewritten hs hd
  obtain ⟨l, r, hfill, hplug⟩ := fill_eq_node f s'
  rw [hfill] at h₁
  obtain ⟨h₂, hset, hrew⟩ := h₁.setEntry b.entry (h₁.cutOff.nodup hd) h₁.cutOff.subset
  obtain ⟨parent₁, ha₁⟩ := h₁.hangs.1
  refine ⟨{ t₁ with heap := h₂ }, s', ?_, ?_, hslot⟩
  · rw [takeOver, hrem, ok_bind]
    simp only [Label.entry] at hset ⊢
    rw [Heap.node_eq ha₁, ok_bind, hset]
    rfl
  · rw [hplug]
    exact hrew

theorem Rewritten.refl {s : Shape K T} (hs : Hangs t.heap s) : Rewritten t t 0 s s :=
  ⟨hs, rfl, CutOff.refl _, rfl, fun _ _ => rfl⟩

section

variable [LinearOrder K]

/-- `TreeNode::remove` does on a tree that hangs together what it does on a binary search tree with the same entries. -/
theorem treeNode_remove_hangs (key : K) {s : Shape K T} {slf : Ptr} {fuel : ℕ} (hs : Hangs t.heap s) (hd : (ptrs s.inorder).Nodup)
    (hroot : root s = some slf) (hfuel : s.numNodes ≤ fuel) :
    ∃ t' s' v, TreeNode.remove key fuel t slf = .ok (t', v) ∧ Rewritten t t' v.toList.length s s' ∧
      BinarySearchTree.TreeNode.remove key (slot s) = (v, slot s') := by
  induction s generalizing slf fuel with
  | nil => cases hroot
  | node a l r ihl ihr =>
    cases hroot
    simp only [numNodes] at hfuel
    obtain ⟨fuel, rfl⟩ := Nat.exists_eq_add_of_le' (by omega : 1 ≤ fuel)
    obtain ⟨hdl, hdr, -⟩ := nodup_map_node hd
    obtain ⟨parent, ha⟩ := hs.1
    have hread := Heap.node_eq ha
    simp only [TreeNode.remove, hread, ok_bind, Label.cell]
    cases l with
    | nil =>
      cases r with
      | nil => exact ⟨t, _, none, rfl, Rewritten.refl hs, rfl⟩
      | node c rl rr =>
        have hsr := hs.2.2
        obtain ⟨parent', hc⟩ := hsr.1
        simp only [root_nil, root_node, Heap.node_eq hc, ok_bind, Label.cell, slot_node, slot_nil, BinarySearchTree.TreeNode.remove]
        by_cases hk : c.key = key
        · obtain ⟨t', r', htake, hrew, hslot⟩ := @takeOver_hangs _ _ t c rl rr (.right .nil a) hs hd
          refine ⟨t', _, some a.val, ?_, hrew, ?_⟩
          · rw [if_pos hk]
            exact htake
          · rw [if_pos hk]
            simp only [slot_node] at hslot
            simp only [BinarySearchTree.takeOver, hslot]
            rfl
        · obtain ⟨t', r', v, hrem, hrew, hslot⟩ := ihr hsr hdr rfl (by omega : _ ≤ fuel)
          refine ⟨t', .node a .nil r', v, ?_, @Rewritten.fill _ _ _ _ _ (.right .nil a) _ _ hs hd hrew, ?_⟩
          · rw [if_neg hk]
            exact hrem
          · rw [if_neg hk]
            simp only [slot_node] at hslot
            rw [hslot]
            rfl
    | node c ll lr =>
      have hsl := hs.2.1
      obtain ⟨parent', hc⟩ := hsl.1
      simp only [root_node, Heap.node_eq hc, ok_bind, Label.cell, slot_node, BinarySearchTree.TreeNode.remove]
      by_cases hk : c.key = key
      · obtain ⟨t', l', htake, hrew, hslot⟩ := @takeOver_hangs _ _ t c ll lr (.left a r) hs hd
        refine ⟨t', _, some a.val, ?_, hrew, ?_⟩
        · rw [if_pos hk]
          exact htake
        · rw [if_pos hk]
          simp only [slot_node] at hslot
          simp only [BinarySearchTree.takeOver, hslot]
          rfl
      · obtain ⟨t', l', v, hrem, hrew, hslot⟩ := ihl hsl hdl rfl (by omega : _ ≤ fuel)
        refine ⟨t', .node a l' r, v, ?_, @Rewritten.fill _ _ _ _ _ (.left a r) _ _ hs hd hrew, ?_⟩
        · rw [if_neg hk]
          exact hrem
        · rw [if_neg hk]
          simp only [slot_node] at hslot
          rw [hslot]
          rfl

/-- `TreeNode::get` finds what it finds in a binary search tree with the same entries. -/
theorem getNode_hangs (key : K) {h : Heap K T} {s : Shape K T} {fuel : ℕ} (hs : Hangs h s) (hfuel : s.numNodes ≤ fuel) :
    getNode key fuel h (root s) = .ok (BinarySearchTree.get key (slot s)) := by
  induction s generalizing fuel with
  | nil => cases fuel <;> rfl
  | node a l r ihl ihr =>
    simp only [numNodes] at hfuel
    obtain ⟨fuel, rfl⟩ := Nat.exists_eq_add_of_le' (by omega : 1 ≤ fuel)
    obtain ⟨⟨parent, ha⟩, hsl, hsr⟩ := hs
    simp only [root_node, getNode, Heap.node_eq ha, ok_bind, Label.cell, slot_node, BinarySearchTree.get]
    split
    · rfl
    · rw [ihl hsl (by omega : _ ≤ fuel), ok_bind]
      cases BinarySearchTree.get key (slot l) with
      | some v => rfl
      | none => exact ihr hsr (by omega : _ ≤ fuel)

end

end

/-! ## Whole trees -/

/-- The child pointers of the tree lead through the shape, at distinct addresses. -/
structure Hung (t : RbTree K T) (s : Shape K T) : Prop where
  val : t.val = root s
  hangs : Hangs t.heap s
  nodup : (ptrs s.inorder).Nodup

theorem Represents.hung {t : RbTree K T} {s : Shape K T} (hr : Represents t s) : Hung t s :=
  ⟨hr.val, hr.heap.below.hangs, hr.heap.distinct⟩

section

variable [LinearOrder K] {t : RbTree K T} {s : Shape K T}

theorem Hung.get (h : Hung t s) (key : K) : t.get key = .ok (BinarySearchTree.get key (slot s)) := by
  unfold RbTree.get
  rw [h.val]
  exact getNode_hangs key h.hangs (h.hangs.numNodes_le h.nodup)

/-- A removal. -/
theorem Hung.remove (h : Hung t s) (key : K) :
    ∃ t' s', RbTree.remove t key = .ok (t', (BinarySearchTree.remove key (slot s)).1) ∧ Hung t' s' ∧
      (BinarySearchTree.remove key (slot s)).2 = slot s' ∧
      CutOff (BinarySearchTree.remove key (slot s)).1.toList.length (ptrs s.inorder) (ptrs s'.inorder) := by
  obtain ⟨hval, hs, hd⟩ := h
  cases s with
  | nil => exact ⟨t, .nil, by simp [RbTree.remove, hval, BinarySearchTree.remove], ⟨hval, hs, hd⟩, rfl, CutOff.refl _⟩
  | node a l r =>
    obtain ⟨parent, ha⟩ := hs.1
    have hfuel := Nat.le_succ_of_le (hs.numNodes_le hd)
    have hread := Heap.node_eq ha
    by_cases hk : a.key = key
    · have hget : Place.root.get t = .ok (some a.ptr) := by rw [Place.get, hval, root_node]
      obtain ⟨t', s', hrem, hremoved, hslot⟩ := removeNode_hangs hs hd hget (fun p dir hp => by cases hp) hfuel
      have hbst : BinarySearchTree.remove key (slot (.node a l r)) = (some a.val, slot s') := by
        rw [slot_node] at hslot
        rw [slot_node, BinarySearchTree.remove, if_pos hk, hslot]
      rw [hbst]
      refine ⟨t', s', ?_, ⟨hremoved.put.1, hremoved.hangs, hremoved.cutOff.nodup hd⟩, rfl, hremoved.cutOff⟩
      simp [RbTree.remove, hval, hread, Label.cell, hk, hrem, Label.entry]
    · obtain ⟨t', s', v, hrem, hrew, hslot⟩ := treeNode_remove_hangs key hs hd rfl hfuel
      have hbst : BinarySearchTree.remove key (slot (.node a l r)) = (v, slot s') := by
        rw [slot_node] at hslot
        rw [slot_node, BinarySearchTree.remove, if_neg hk, hslot]
      rw [hbst]
      refine ⟨t', s', ?_, ⟨?_, hrew.hangs, hrew.cutOff.nodup hd⟩, rfl, hrew.cutOff⟩
      · simp [RbTree.remove, hval, hread, Label.cell, hk, hrem]
      · rw [hrew.val, hval, hrew.root_eq]

end

/-! ## `Drop` -/

theorem Heap.live_eq {h : Heap K T} {freed : List Ptr} {p : Ptr} {n : TreeNode K T} (hp : p ∉ freed) (hn : h.read p = some n) :
    h.live freed p = .ok n := by
  rw [Heap.live, if_neg hp, Heap.node_eq hn]

/-- The nodes of a tree are given back, those of a node's subtrees before the node. -/
theorem release_hangs {h : Heap K T} {s : Shape K T} {fuel : ℕ} {freed : List Ptr} (hs : Hangs h s)
    (hd : (freed ++ ptrs s.inorder).Nodup) (hfuel : s.numNodes ≤ fuel) :
    h.release (destroyChildren h fuel) freed (root s) = .ok (freed ++ ptrs s.postorder) := by
  induction s generalizing fuel freed with
  | nil => simp [Heap.release]
  | node a l r ihl ihr =>
    simp only [numNodes] at hfuel
    obtain ⟨fuel, rfl⟩ := Nat.exists_eq_add_of_le' (by omega : 1 ≤ fuel)
    obtain ⟨⟨parent, ha⟩, hsl, hsr⟩ := hs
    have hperm : (freed ++ ptrs (BinaryTree.node a l r).inorder).Perm
        (a.ptr :: (freed ++ ptrs l.postorder ++ ptrs r.inorder)) := by
      have hl : (ptrs l.inorder).Perm (ptrs l.postorder) := (l.postorder_perm.map _).symm
      rw [inorder_node, ptrs_append, ptrs_cons, List.append_assoc]
      refine ((hl.append_right _).append_left freed).trans ?_
      rw [← List.append_assoc, ← List.append_assoc]
      exact List.perm_middle
    obtain ⟨ha', hdr⟩ := List.nodup_cons.mp (hperm.nodup_iff.mp hd)
    have hfreed : a.ptr ∉ freed := by
      intro hmem
      exact ha' (by simp [hmem])
    have hdl : (freed ++ ptrs l.inorder).Nodup := by
      refine hd.sublist (List.Sublist.append_left ?_ freed)
      rw [inorder_node, ptrs_append]
      exact List.sublist_append_left _ _
    have hlast : a.ptr ∉ freed ++ ptrs l.postorder ++ ptrs r.postorder := by
      intro hmem
      have hr : (ptrs r.postorder).Perm (ptrs r.inorder) := r.postorder_perm.map _
      exact ha' ((hr.append_left _).subset hmem)
    have hl := ihl hsl hdl (by omega : _ ≤ fuel)
    have hr := ihr hsr hdr (by omega : _ ≤ fuel)
    have hdestroy : destroyChildren h (fuel + 1) freed a.ptr = .ok (freed ++ ptrs l.postorder ++ ptrs r.postorder) := by
      rw [destroyChildren, Heap.live_eq hfreed ha, ok_bind]
      change (h.release _ freed (root l) >>= fun freed => h.release _ freed (root r)) = _
      rw [hl, ok_bind, hr]
    rw [root_node, Heap.release, hdestroy, ok_bind, Heap.dealloc, Heap.live_eq hlast ha, ok_bind]
    simp

theorem Hung.drop {t : RbTree K T} {s : Shape K T} (h : Hung t s) : t.drop = .ok (ptrs s.postorder) := by
  unfold RbTree.drop
  rw [h.val]
  exact release_hangs h.hangs h.nodup (h.hangs.numNodes_le h.nodup)

end MiriWeirdness.RbTree
