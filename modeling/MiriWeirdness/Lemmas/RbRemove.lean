import MiriWeirdness.Lemmas.RbClimb
import MiriWeirdness.Lemmas.RbLinks

/-!
# A removal on the tree

Which node `remove` comes to and what it leaves. The search goes to one child of a node only. `remove_node` passes the entries up along
the left spine below the node it is called for. When the spine ends in a leaf, the leaf is cut off, and the heap holds the tree that
`pulled` gives. When it ends in a node with one child, the child's cell is copied over the node's, with the parent pointer, so that the
node becomes its own parent.
-/

namespace MiriWeirdness.RbTree

open BinaryTree

variable {K T : Type}

/-! ## The tree after a removal -/

/-- The label with another key and value. -/
def Label.withEntry (a : Label K T) (kv : K × T) : Label K T := { a with key := kv.1, val := kv.2 }

/-- The path with another key and value at its nearest node. -/
def withEntry (kv : K × T) : Path K T → Path K T
  | [] => []
  | .left a r :: path => .left (a.withEntry kv) r :: path
  | .right l a :: path => .right l (a.withEntry kv) :: path

/-- The leaf at the end of the left spine, whose other nodes have two children; none when the spine ends in a node with one child. -/
def spineLeaf : Shape K T → Option (Label K T)
  | .nil => none
  | .node a l r =>
    match l, r with
    | .nil, .nil => some a
    | .node _ _ _, .node _ _ _ => spineLeaf l
    | _, _ => none

/-- The subtree that `remove_node` leaves in a place: every node of the left spine takes the entry of the next one, and the leaf at its
end is cut off. -/
def pulled : Shape K T → Option (Shape K T)
  | .nil => none
  | .node a l r =>
    match l, r with
    | .nil, .nil => some .nil
    | .node b _ _, .node _ _ _ => (pulled l).map fun l' => .node (a.withEntry b.entry) l' r
    | _, _ => none

/-- There is a tree to leave when the spine ends in a leaf. -/
theorem isSome_pulled (s : Shape K T) : (pulled s).isSome = (spineLeaf s).isSome := by
  induction s with
  | nil => rfl
  | node a l r ihl _ =>
    cases l with
    | nil => cases r <;> rfl
    | node b ll lr =>
      cases r with
      | nil => rfl
      | node c rl rr => simpa [pulled, spineLeaf] using ihl

/-- What two children of a node leave. -/
theorem pulled_node {a b c : Label K T} {ll lr rl rr s : Shape K T} (h : pulled (.node a (.node b ll lr) (.node c rl rr)) = some s) :
    ∃ l, pulled (.node b ll lr) = some l ∧ s = .node (a.withEntry b.entry) l (.node c rl rr) := by
  obtain ⟨l, hl, hs⟩ := Option.map_eq_some_iff.mp h
  exact ⟨l, hl, hs.symm⟩

section

variable [DecidableEq K]

/-- The node that `remove` finds with a key, its subtrees, and the path above it: the search goes to the left child of a node where there
is one, else to the right one. -/
def search (key : K) : Shape K T → Path K T → Option (Path K T × Label K T × Shape K T × Shape K T)
  | .nil, _ => none
  | .node a l r, path =>
    if a.key = key then some (path, a, l, r)
    else if l.isNil then search key r (.right l a :: path)
    else search key l (.left a r :: path)

/-- The tree after the removal of a key: the node above the one that was found, if there is one, takes the entry of that one. -/
def shrunk (key : K) (s : Shape K T) : Option (Shape K T) :=
  match search key s [] with
  | none => some s
  | some (path, a, l, r) => (pulled (.node a l r)).map (plug (withEntry a.entry path))

/-- The value that the removal of a key returns: that of the node above the one that was found, if there is one. -/
def removedVal (key : K) (s : Shape K T) : Option T :=
  match search key s [] with
  | none => none
  | some ([], a, _, _) => some a.val
  | some (f :: _, _, _, _) => some f.label.val

/-- The search ends at a node of the tree it started in. -/
theorem plug_of_search {key : K} {s l r : Shape K T} {path path' : Path K T} {a : Label K T}
    (h : search key s path = some (path', a, l, r)) : plug path' (.node a l r) = plug path s := by
  induction s generalizing path with
  | nil => cases h
  | node b bl br ihl ihr =>
    unfold search at h
    split at h
    · cases h
      rfl
    · split at h
      · exact ihr h
      · exact ihl h

end

/-! ## Places -/

/-- The place of the subtree that a path leaves out. -/
def place : Path K T → Place
  | [] => .root
  | f :: _ => .child f.label.ptr (side f)

section

variable {t : RbTree K T} {path : Path K T} {s : Shape K T}

/-- The pointer in the place of a subtree. -/
theorem Sees.get_place (h : Sees t path s) : (place path).get t = .ok (root s) := by
  cases path with
  | nil => rw [place, Place.get, h.val, plug_nil]
  | cons f path =>
    obtain ⟨n, hn, hc⟩ := h.heap.above.read_child
    simp [place, Place.get, Heap.node_eq hn, hc]

/-- A leaf is cut off. -/
theorem Sees.take_place {a : Label K T} (h : Sees t path (.node a .nil .nil)) :
    ∃ t', (place path).take t = .ok t' ∧ Sees t' path .nil := by
  cases path with
  | nil => exact ⟨_, rfl, rfl, trivial, trivial, List.nodup_nil⟩
  | cons f path =>
    have hd := h.heap.nodup
    rw [List.nodup_append] at hd
    obtain ⟨-, hd, -⟩ := hd
    obtain ⟨n, hn, -⟩ := h.heap.above.frame
    refine ⟨{ t with heap := t.heap.modify f.label.ptr fun n => n.putChild (side f) none }, ?_, ?_, ?_, trivial, ?_⟩
    · simp [place, Place.take, Heap.update_eq _ hn]
    · exact h.val.trans (root_plug (List.cons_ne_nil _ _) _ _)
    · refine h.heap.above.putChild (fun m hm => ?_) (fun q _ hq => ?_) hd
      · rw [Arena.read_modify, if_pos rfl, hm]
        rfl
      · rw [Arena.read_modify, if_neg hq]
    · rw [inorder_plug, inorder_nil, List.append_nil]
      exact hd

/-- A write of a key and a value to the node of a subtree. -/
theorem Sees.setEntry {a : Label K T} {l r : Shape K T} (kv : K × T) (h : Sees t path (.node a l r)) :
    ∃ h', t.heap.update a.ptr (fun n => { n with key := kv.1, val := kv.2 }) = .ok h' ∧
      Sees { t with heap := h' } path (.node (a.withEntry kv) l r) := by
  obtain ⟨h', heq, -, hf⟩ := @Focus.relabel _ _ _ _ _ (a.withEntry kv) _ _ (fun n => { n with key := kv.1, val := kv.2 }) h.heap rfl rfl
  refine ⟨h', heq, ?_, hf⟩
  cases path with
  | nil => exact h.val
  | cons f path => exact h.val.trans (root_plug (List.cons_ne_nil _ _) _ _)

end

/-! ## Copied cells -/

/-- The cell of a child of `v` was copied over that of `v`, which is now its own parent; the other nodes have the children they had. -/
structure Copied (h h' : Heap K T) (v : Ptr) : Prop where
  self : ∃ n, h'.read v = some n ∧ n.parent = some v
  rest : ∀ q n, q ≠ v → h.read q = some n → ∃ n', h'.read q = some n' ∧ n'.left = n.left ∧ n'.right = n.right

/-- Every node that could be read can still be read. -/
theorem Copied.read {h h' : Heap K T} {v q : Ptr} {n : TreeNode K T} (hc : Copied h h' v) (hn : h.read q = some n) :
    ∃ n', h'.read q = some n' := by
  by_cases hq : q = v
  · obtain ⟨n', hn', -⟩ := hc.self
    exact ⟨n', by rw [hq, hn']⟩
  · obtain ⟨n', hn', -⟩ := hc.rest q n hq hn
    exact ⟨n', hn'⟩

/-- A write of a key and a value after the copy. -/
theorem Copied.setEntry {h h' : Heap K T} {v q : Ptr} {n : TreeNode K T} (kv : K × T) (hc : Copied h h' v) (hn : h.read q = some n) :
    ∃ h'', h'.update q (fun n => { n with key := kv.1, val := kv.2 }) = .ok h'' ∧ (∀ p, p ≠ q → h''.read p = h'.read p) ∧
      Copied h h'' v := by
  obtain ⟨n', hn'⟩ := hc.read hn
  have hread : ∀ p m, h'.read p = some m → ∃ m', (h'.modify q fun n => { n with key := kv.1, val := kv.2 }).read p = some m' ∧
      m'.parent = m.parent ∧ m'.left = m.left ∧ m'.right = m.right := by
    intro p m hm
    rw [Arena.read_modify, hm]
    split
    · exact ⟨_, rfl, rfl, rfl, rfl⟩
    · exact ⟨m, rfl, rfl, rfl, rfl⟩
  refine ⟨_, Heap.update_eq _ hn', fun p hp => by rw [Arena.read_modify, if_neg hp], ?_, fun p m hp hm => ?_⟩
  · obtain ⟨m, hm, hmv⟩ := hc.self
    obtain ⟨m', hm', hpar, -⟩ := hread v m hm
    exact ⟨m', hm', hpar.trans hmv⟩
  · obtain ⟨k, hk, hkl, hkr⟩ := hc.rest p m hp hm
    obtain ⟨k', hk', -, hl, hr⟩ := hread p k hk
    exact ⟨k', hk', hl.trans hkl, hr.trans hkr⟩

/-- A node that is reached from the root is its own parent. -/
def Loops (t : RbTree K T) : Prop := ∃ v d n, DepthAt t v d ∧ t.heap.read v = some n ∧ n.parent = some v

/-- In a tree no node is its own parent. -/
theorem Represents.not_loops {t : RbTree K T} {s : Shape K T} (hr : Represents t s) : ¬Loops t := by
  rintro ⟨v, d, n, hd, hn, hp⟩
  obtain ⟨path, a, l, r, hf, rfl, -, -⟩ := hr.focus_of_depthAt hd
  obtain rfl : a.cell (top path) (root l) (root r) = n := Option.some.inj (hf.read.symm.trans hn)
  exact hf.ptr_not_mem (mem_ptrs_of_top hp)

/-- A node is still reached when the nodes above it keep their children. -/
theorem Focus.depthAt {h : Heap K T} {t : RbTree K T} {path : Path K T} {s : Shape K T} {p : Ptr} (hf : Focus h path s)
    (hroot : root s = some p) (hval : t.val = root (plug path s))
    (hkeep : ∀ q ∈ ptrs (before path ++ after path), ∀ n, h.read q = some n →
      ∃ n', t.heap.read q = some n' ∧ n'.left = n.left ∧ n'.right = n.right) : DepthAt t p (path.length + 1) := by
  induction path generalizing s p with
  | nil => exact .root (hval.trans hroot)
  | cons f path ih =>
    obtain ⟨n, hn, hc⟩ := hf.above.read_child
    obtain ⟨n', hn', hl, hr⟩ := hkeep _ (mem_ptrs_path.mpr (Or.inl rfl)) n hn
    have habove : DepthAt t f.label.ptr (path.length + 1) :=
      ih (focus_cons_iff.mp hf) (root_fill f s) hval fun q hq => hkeep q (mem_ptrs_path.mpr (Or.inr (Or.inr hq)))
    refine .child habove hn' ?_
    rw [hl, hr]
    cases f with
    | left a r => exact Or.inl (hc.trans hroot)
    | right l a => exact Or.inr (hc.trans hroot)

/-- After a copy in a tree a node is its own parent. -/
theorem Copied.loops {t t' : RbTree K T} {s : Shape K T} {v : Ptr} (hc : Copied t.heap t'.heap v) (hs : Represents t s)
    (hv : v ∈ ptrs s.inorder) (hval : t'.val = t.val) : Loops t' := by
  obtain ⟨path, a, l, r, rfl, rfl, hf⟩ := hs.heap.at_mem hv
  obtain ⟨n, hn, hp⟩ := hc.self
  refine ⟨a.ptr, _, n, hf.depthAt rfl (hval.trans hs.val) fun q hq m hm => hc.rest q m ?_ hm, hn, hp⟩
  rintro rfl
  exact hf.ptr_not_mem hq

/-! ## `remove_node` -/

/-- What `remove_node` leaves in the place of a subtree: the tree of `pulled`, or one in which a node's cell is a copy of its child's. -/
def RemovedAt (t t' : RbTree K T) (path : Path K T) (s : Shape K T) : Prop :=
  (∃ s', pulled s = some s' ∧ Sees t' path s') ∨
    pulled s = none ∧ t'.val = t.val ∧ (∀ q ∈ ptrs (before path ++ after path), t'.heap.read q = t.heap.read q) ∧
      ∃ v ∈ ptrs s.inorder, Copied t.heap t'.heap v

section

variable {t t' : RbTree K T} {path : Path K T} {a b c : Label K T} {l r ll lr rl rr : Shape K T} {fuel : Nat}

/-- The cell of the only child is copied over the node's. -/
theorem Sees.copyOver (hs : Sees t path (.node a l r)) (honly : l.isNil ≠ r.isNil) (hb : root l = some b.ptr ∨ root r = some b.ptr) :
    ∃ h', t.heap.copyOver a.ptr b.ptr = .ok h' ∧ RemovedAt t { t with heap := h' } path (.node a l r) := by
  obtain ⟨m, hm, hmp⟩ : ∃ m, t.heap.read b.ptr = some m ∧ m.parent = some a.ptr := by
    rcases hb with hb | hb
    · exact hs.heap.below.2.1.read_root hb
    · exact hs.heap.below.2.2.read_root hb
  refine ⟨t.heap.modify a.ptr fun _ => m, ?_, Or.inr ⟨?_, rfl, fun q hq => ?_, a.ptr, by simp, ⟨m, ?_, hmp⟩, fun q n hq hn => ?_⟩⟩
  · simp [Heap.copyOver, Heap.node_eq hm, Heap.update_eq _ hs.heap.read]
  · cases l <;> cases r <;> first | rfl | exact absurd rfl honly
  · rw [Arena.read_modify, if_neg]
    rintro rfl
    exact hs.heap.ptr_not_mem hq
  · rw [Arena.read_modify, if_pos rfl, hs.heap.read]
    rfl
  · exact ⟨n, by rw [Arena.read_modify, if_neg hq, hn], rfl, rfl⟩

/-- A node with two children, when its left child has given up its entry. -/
theorem removeNode_two {t₁ : RbTree K T} {kv : K × T} (hs : Sees t path (.node a (.node b ll lr) (.node c rl rr)))
    (hrem : removeNode fuel t (.child a.ptr .left) = .ok (t₁, some kv)) :
    removeNode (fuel + 1) t (place path) = (do
      let n ← t₁.heap.node a.ptr
      let h ← t₁.heap.update a.ptr fun n => { n with key := kv.1, val := kv.2 }
      let h ← if ll.isNil && lr.isNil then h.update a.ptr fun n => n.putChild .left none else .ok h
      .ok ({ t₁ with heap := h }, some (n.key, n.val))) := by
  have hb := Heap.node_eq hs.heap.below.2.1.1
  have hroot : ∀ s : Shape K T, (root s).isNone = s.isNil := fun s => by cases s <;> rfl
  simp only [removeNode, hs.get_place, root_node, ok_bind, Heap.node_eq hs.heap.read, Label.cell] at hb ⊢
  simp only [hb, hrem, ok_bind, hroot]

/-- A left child that is a leaf is gone after it has given up its entry. -/
theorem pulled_leaf (h : ll.isNil && lr.isNil) : pulled (.node b ll lr) = some .nil := by
  rw [Bool.and_eq_true, isNil_iff, isNil_iff] at h
  rw [h.1, h.2]
  rfl

/-- A node with two children takes the entry that its left child has given up. -/
theorem RemovedAt.takeEntry {t₁ : RbTree K T} (hs : Sees t path (.node a (.node b ll lr) (.node c rl rr)))
    (h : RemovedAt t t₁ (.left a (.node c rl rr) :: path) (.node b ll lr)) :
    ∃ t', (do
      let n ← t₁.heap.node a.ptr
      let h ← t₁.heap.update a.ptr fun n => { n with key := b.entry.1, val := b.entry.2 }
      let h ← if ll.isNil && lr.isNil then h.update a.ptr fun n => n.putChild .left none else .ok h
      .ok ({ t₁ with heap := h }, some (n.key, n.val))) = (.ok (t', some a.entry) : Except Fault (RbTree K T × Option (K × T))) ∧
        RemovedAt t t' path (.node a (.node b ll lr) (.node c rl rr)) := by
  rcases h with ⟨l', hl', hs₁⟩ | ⟨hnone, hval, hrest, v, hv, hcopied⟩
  · have hs₁ : Sees t₁ path (.node a l' (.node c rl rr)) := ⟨hs₁.val, focus_cons_iff.mp hs₁.heap⟩
    have hpulled : pulled (.node a (.node b ll lr) (.node c rl rr)) = some (.node (a.withEntry b.entry) l' (.node c rl rr)) := by
      rw [pulled, hl']
      rfl
    obtain ⟨h₂, hset, hs₂⟩ := hs₁.setEntry b.entry
    rw [Heap.node_eq hs₁.heap.read, ok_bind, hset, ok_bind]
    split
    · next hleaf =>
      -- the child pointer is cleared once more
      obtain rfl : .nil = l' := Option.some.inj ((pulled_leaf hleaf).symm.trans hl')
      obtain ⟨h₃, hclear, -, hf₃⟩ := @Focus.relabel _ _ _ _ _ (a.withEntry b.entry) _ _ (fun n => n.putChild .left none) hs₂.heap rfl rfl
      have hclear : h₂.update a.ptr (fun n => n.putChild .left none) = .ok h₃ := hclear
      exact ⟨{ t₁ with heap := h₃ }, by rw [hclear]; rfl, Or.inl ⟨_, hpulled, hs₂.val, hf₃⟩⟩
    · exact ⟨{ t₁ with heap := h₂ }, rfl, Or.inl ⟨_, hpulled, hs₂⟩⟩
  · have hleaf : ¬(ll.isNil && lr.isNil) := fun h => by simp [pulled_leaf h] at hnone
    have ha := hs.heap.read
    have ha₁ := (hrest a.ptr (mem_ptrs_path.mpr (Or.inl rfl))).trans ha
    obtain ⟨h₂, hset, hsame, hcopied₂⟩ := hcopied.setEntry b.entry ha
    rw [Heap.node_eq ha₁, ok_bind, hset, ok_bind, if_neg hleaf]
    refine ⟨{ t₁ with heap := h₂ }, rfl, Or.inr ⟨by rw [pulled, hnone]; rfl, hval, fun q hq => ?_, v, ?_, hcopied₂⟩⟩
    · have hne : q ≠ a.ptr := by
        rintro rfl
        exact hs.heap.ptr_not_mem hq
      exact (hsame q hne).trans (hrest q (mem_ptrs_path.mpr (Or.inr (Or.inr hq))))
    · rw [inorder_node, ptrs_append, List.mem_append]
      exact Or.inl hv

/-- `remove_node` gives out the entry of the node. The induction is on the left spine. -/
theorem removeNode_follows (hs : Sees t path (.node a l r)) (hfuel : (BinaryTree.node a l r).numNodes ≤ fuel) :
    ∃ t', removeNode fuel t (place path) = .ok (t', some a.entry) ∧ RemovedAt t t' path (.node a l r) := by
  induction l generalizing a r path fuel with
  | nil =>
    simp only [numNodes] at hfuel
    obtain ⟨fuel, rfl⟩ := Nat.exists_eq_add_of_le' (by omega : 1 ≤ fuel)
    cases r with
    | nil =>
      obtain ⟨t', htake, hs'⟩ := hs.take_place
      refine ⟨t', ?_, Or.inl ⟨_, rfl, hs'⟩⟩
      simp [removeNode, hs.get_place, Heap.node_eq hs.heap.read, Label.cell, htake, Label.entry]
    | node c rl rr =>
      obtain ⟨h', hcopy, hrem⟩ := hs.copyOver (by simp) (Or.inr rfl)
      refine ⟨_, ?_, hrem⟩
      simp [removeNode, hs.get_place, Heap.node_eq hs.heap.read, Label.cell, hcopy, Label.entry]
  | node b ll lr ih _ =>
    simp only [numNodes] at hfuel
    obtain ⟨fuel, rfl⟩ := Nat.exists_eq_add_of_le' (by omega : 1 ≤ fuel)
    cases r with
    | nil =>
      obtain ⟨h', hcopy, hrem⟩ := hs.copyOver (by simp) (Or.inl rfl)
      refine ⟨_, ?_, hrem⟩
      simp [removeNode, hs.get_place, Heap.node_eq hs.heap.read, Label.cell, hcopy, Label.entry]
    | node c rl rr =>
      have hsl : Sees t (.left a (.node c rl rr) :: path) (.node b ll lr) := ⟨hs.val, focus_cons_iff.mpr hs.heap⟩
      obtain ⟨t₁, hrem, hremoved⟩ := ih hsl (by simp only [numNodes]; omega : (BinaryTree.node b ll lr).numNodes ≤ fuel)
      rw [removeNode_two hs hrem]
      exact hremoved.takeEntry hs

end

/-! ## `remove` -/

/-- The node of the nearest frame, with its own entry or another. -/
theorem fill_eq_node (f : Frame (Label K T)) (s : Shape K T) :
    ∃ l r, f.fill s = .node f.label l r ∧
      ∀ kv path, plug (withEntry kv (f :: path)) s = plug path (.node (f.label.withEntry kv) l r) := by
  cases f with
  | left a r => exact ⟨s, r, rfl, fun _ _ => rfl⟩
  | right l a => exact ⟨l, s, rfl, fun _ _ => rfl⟩

/-- The node above takes the entry that comes out of its child's place. -/
theorem takeOver_follows {t : RbTree K T} {f : Frame (Label K T)} {path : Path K T} {a : Label K T} {l r : Shape K T}
    (hs : Sees t (f :: path) (.node a l r)) :
    ∃ t', takeOver t f.label.ptr (side f) = .ok (t', some f.label.val) ∧
      ((∃ s, pulled (.node a l r) = some s ∧ Represents t' (plug (withEntry a.entry (f :: path)) s)) ∨
        pulled (.node a l r) = none ∧ Loops t') := by
  have hfuel : (BinaryTree.node a l r).numNodes ≤ t.heap.size + 1 := by
    have := hs.heap.numNodes_le
    rw [numNodes_plug] at this
    omega
  obtain ⟨t₁, hrem, hremoved⟩ := removeNode_follows hs hfuel
  rw [place] at hrem
  rw [takeOver, hrem, ok_bind]
  rcases hremoved with ⟨s, hpulled, hs₁⟩ | ⟨hnone, hval, hrest, v, hv, hcopied⟩
  · obtain ⟨fl, fr, hfill, hplug⟩ := fill_eq_node f s
    have habove : Sees t₁ path (.node f.label fl fr) := ⟨by rw [← hfill]; exact hs₁.val, by rw [← hfill]; exact focus_cons_iff.mp hs₁.heap⟩
    obtain ⟨h₂, hset, hs₂⟩ := habove.setEntry a.entry
    refine ⟨{ t₁ with heap := h₂ }, ?_, Or.inl ⟨s, hpulled, ?_⟩⟩
    · simp only [Heap.node_eq habove.heap.read, ok_bind, hset]
      rfl
    · rw [hplug]
      exact sees_iff_represents.mp hs₂
  · obtain ⟨fl, fr, hfill, -⟩ := fill_eq_node f (.node a l r)
    have habove : Focus t.heap path (.node f.label fl fr) := by
      rw [← hfill]
      exact focus_cons_iff.mp hs.heap
    have hread := (hrest _ (mem_ptrs_path.mpr (Or.inl rfl))).trans habove.read
    obtain ⟨h₂, hset, -, hcopied₂⟩ := hcopied.setEntry a.entry habove.read
    refine ⟨{ t₁ with heap := h₂ }, ?_, Or.inr ⟨hnone, hcopied₂.loops (sees_iff_represents.mp hs) ?_ hval⟩⟩
    · simp only [Heap.node_eq hread, ok_bind, hset]
      rfl
    · rw [inorder_plug, ptrs_append, ptrs_append, List.mem_append, List.mem_append]
      exact Or.inl (Or.inr hv)

section

variable [LinearOrder K] {t : RbTree K T} {path : Path K T} {fuel : Nat} {key : K}

/-- The search of `TreeNode::remove` ends where `search` does. -/
theorem TreeNode.remove_eq {s : Shape K T} {slf : Ptr} (hf : Focus t.heap path s) (hroot : root s = some slf)
    (hk : ∀ a l r, s = .node a l r → a.key ≠ key) (hfuel : s.numNodes ≤ fuel) :
    (search key s path = none ∧ TreeNode.remove key fuel t slf = .ok (t, none)) ∨
      ∃ f above b, search key s path = some (f :: above, b) ∧ TreeNode.remove key fuel t slf = takeOver t f.label.ptr (side f) := by
  induction s generalizing path slf fuel with
  | nil => cases hroot
  | node a l r ihl ihr =>
    cases hroot
    simp only [numNodes] at hfuel
    obtain ⟨fuel, rfl⟩ := Nat.exists_eq_add_of_le' (by omega : 1 ≤ fuel)
    have hread := Heap.node_eq hf.read
    rw [search, if_neg (hk a l r rfl)]
    simp only [TreeNode.remove, hread, ok_bind, Label.cell]
    cases l with
    | nil =>
      cases r with
      | nil => exact Or.inl ⟨rfl, rfl⟩
      | node c rl rr =>
        have hf' : Focus t.heap (.right .nil a :: path) (.node c rl rr) := focus_cons_iff.mpr hf
        simp only [root_nil, root_node, Heap.node_eq hf'.read, ok_bind, Label.cell, isNil_nil, if_true]
        by_cases hc : c.key = key
        · exact Or.inr ⟨.right .nil a, path, _, by rw [search, if_pos hc], by rw [if_pos hc]; rfl⟩
        · rw [if_neg hc]
          refine ihr hf' rfl ?_ (by omega)
          rintro c' rl' rr' ⟨⟩
          exact hc
    | node c ll lr =>
      have hf' : Focus t.heap (.left a r :: path) (.node c ll lr) := focus_cons_iff.mpr hf
      simp only [root_node, Heap.node_eq hf'.read, ok_bind, Label.cell, isNil_node, Bool.false_eq_true, if_false]
      by_cases hc : c.key = key
      · exact Or.inr ⟨.left a r, path, _, by rw [search, if_pos hc], by rw [if_pos hc]; rfl⟩
      · rw [if_neg hc]
        refine ihl hf' rfl ?_ (by omega)
        rintro c' ll' lr' ⟨⟩
        exact hc

/-- `remove` leaves the tree of `shrunk`, or one in which a node is its own parent. -/
theorem remove_follows {s : Shape K T} (hr : Represents t s) (key : K) :
    ∃ t', remove t key = .ok (t', removedVal key s) ∧
      ((∃ s', shrunk key s = some s' ∧ Represents t' s') ∨ shrunk key s = none ∧ Loops t') := by
  cases s with
  | nil =>
    refine ⟨t, ?_, Or.inl ⟨.nil, rfl, hr⟩⟩
    simp [remove, hr.val, removedVal, search]
  | node a l r =>
    have hfuel : (BinaryTree.node a l r).numNodes ≤ t.heap.size + 1 := Nat.le_succ_of_le hr.heap.numNodes_le
    have hread := Heap.node_eq hr.heap.read
    by_cases hk : a.key = key
    · have hsearch : search key (.node a l r) [] = some ([], a, l, r) := by rw [search, if_pos hk]
      have hs : Sees t [] (.node a l r) := ⟨hr.val, hr.heap⟩
      obtain ⟨t', hrem, hremoved⟩ := removeNode_follows hs hfuel
      rw [place] at hrem
      refine ⟨t', by simp [remove, hr.val, hread, Label.cell, hk, hrem, Label.entry, removedVal, hsearch], ?_⟩
      rcases hremoved with ⟨s, hpulled, hs'⟩ | ⟨hnone, hval, -, v, hv, hcopied⟩
      · exact Or.inl ⟨s, by simp [shrunk, hsearch, hpulled, withEntry], hs'.val, hs'.heap⟩
      · exact Or.inr ⟨by simp [shrunk, hsearch, hnone], hcopied.loops hr hv hval⟩
    · have heq : remove t key = TreeNode.remove key (t.heap.size + 1) t a.ptr := by
        simp [remove, hr.val, hread, Label.cell, hk]
      rw [heq]
      have hroot : ∀ a' l' r', BinaryTree.node a l r = .node a' l' r' → a'.key ≠ key := by
        rintro a' l' r' ⟨⟩
        exact hk
      rcases TreeNode.remove_eq hr.heap rfl hroot hfuel with ⟨hsearch, hrem⟩ | ⟨f, above, ⟨b, bl, br⟩, hsearch, hrem⟩
      · exact ⟨t, by rw [hrem, removedVal, hsearch], Or.inl ⟨_, by rw [shrunk, hsearch], hr⟩⟩
      · have hs : Sees t (f :: above) (.node b bl br) := sees_iff_represents.mpr (by rw [plug_of_search hsearch]; exact hr)
        obtain ⟨t', htake, hremoved⟩ := takeOver_follows hs
        refine ⟨t', by rw [hrem, htake, removedVal, hsearch], ?_⟩
        rcases hremoved with ⟨s, hpulled, hs'⟩ | ⟨hnone, hloops⟩
        · exact Or.inl ⟨_, by simp [shrunk, hsearch, hpulled], hs'⟩
        · exact Or.inr ⟨by simp [shrunk, hsearch, hnone], hloops⟩

end

end MiriWeirdness.RbTree
