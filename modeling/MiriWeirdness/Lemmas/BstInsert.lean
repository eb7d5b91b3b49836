import MiriWeirdness.Lemmas.BstLinked
import MiriWeirdness.Library.Runs

/-!
# Inserts in memory

An insert goes down to a slot that is empty, and there it writes a node that was not used before. On its way it writes nothing, so what is
at the slot is all that is new.
-/

namespace MiriWeirdness

variable {K T : Type}

namespace BstMemory

open BinaryTree BinarySearchTree

/-- The pointers of a heap that agrees on its addresses lead through the same shape. -/
theorem Holds.congr {h h' : Heap K T} {s : Shape K T} (hs : Holds h s) (hr : ∀ p ∈ ptrs s.inorder, h'.read p = h.read p) : Holds h' s := by
  induction s with
  | nil => trivial
  | node a l r ihl ihr =>
    obtain ⟨ha, hl, hrt⟩ := hs
    refine ⟨?_, ihl hl fun p hp => hr p ?_, ihr hrt fun p hp => hr p ?_⟩
    · rw [hr a.ptr (by simp), ha]
    · simp [hp]
    · simp [hp]

theorem Holds.lt_size {h : Heap K T} {s : Shape K T} (hs : Holds h s) : ∀ p ∈ ptrs s.inorder, p < h.size := by
  intro p hp
  rw [← ptrs_toRb] at hp
  have hlt := (hangs_toRb hs).lt_size p hp
  rwa [Arena.size_image] at hlt

/-- A shape has no more nodes than the heap. -/
theorem Holds.numNodes_le {h : Heap K T} {s : Shape K T} (hs : Holds h s) (hd : (ptrs s.inorder).Nodup) : s.numNodes ≤ h.size := by
  rw [← ptrs_toRb] at hd
  have hle := (hangs_toRb hs).numNodes_le hd
  rwa [numNodes_map, Arena.size_image] at hle

/-! ## The new node -/

/-- The place of the subtree that a frame leaves out. -/
def place : Frame (Label K T) → Place
  | .left a _ => .left a.ptr
  | .right _ a => .right a.ptr

/-- The addresses that an insert takes. -/
def fresh (t : BstMemory K T) (alloc : Bool) : List Ptr := if alloc then [t.heap.size] else []

/-- What an insert leaves in the slot that was empty. -/
def planted (t : BstMemory K T) (alloc : Bool) (e : Entry K T) : Shape K T :=
  if alloc then .node { ptr := t.heap.size, entry := e } .nil .nil else .nil

theorem entries_planted (t : BstMemory K T) (alloc : Bool) (e : Entry K T) :
    entries (planted t alloc e) = BinarySearchTree.place alloc e.key e.val := by
  cases alloc <;> rfl

/-- What an insert below a node does: the node stays where it is, the new addresses are added to those of the tree, and nothing outside of
the tree is written. -/
structure Grown (t t' : BstMemory K T) (new : List Ptr) (s s' : Shape K T) : Prop where
  holds : Holds t'.heap s'
  root_eq : root s' = root s
  ptrs_perm : (ptrs s'.inorder).Perm (new ++ ptrs s.inorder)
  val : t'.val = t.val
  size : t'.heap.size = t.heap.size + new.length
  rest : ∀ q < t.heap.size, q ∉ ptrs s.inorder → t'.heap.read q = t.heap.read q

variable {t t' : BstMemory K T} {new : List Ptr} {f : Frame (Label K T)} {s s' : Shape K T}

theorem Grown.refl (hs : Holds t.heap s) : Grown t t [] s s :=
  ⟨hs, rfl, List.Perm.refl _, rfl, rfl, fun _ _ _ => rfl⟩

/-- The addresses of a frame's node and of its sibling, beside those of its subtree. -/
theorem ptrs_fill_perm (f : Frame (Label K T)) (s : Shape K T) :
    (ptrs (f.fill s).inorder).Perm (ptrs s.inorder ++ f.label.ptr :: ptrs f.sibling.inorder) := by
  cases f with
  | left a r => simp [Frame.fill, Frame.label, Frame.sibling]
  | right l a =>
    simp only [Frame.fill, Frame.label, Frame.sibling, inorder_node, ptrs_append, ptrs_cons]
    refine List.Perm.trans ?_ List.perm_append_comm
    exact List.perm_middle

theorem ptrs_fill_grown (f : Frame (Label K T)) (h : (ptrs s'.inorder).Perm (new ++ ptrs s.inorder)) :
    (ptrs (f.fill s').inorder).Perm (new ++ ptrs (f.fill s).inorder) := by
  refine (ptrs_fill_perm f s').trans ?_
  refine List.Perm.trans ?_ ((ptrs_fill_perm f s).symm.append_left new)
  rw [← List.append_assoc]
  exact h.append_right _

theorem root_fill (f : Frame (Label K T)) (s : Shape K T) : root (f.fill s) = some f.label.ptr := by
  cases f <;> rfl

/-- The cell of a frame's node, with this pointer to the subtree. -/
def frameCell (f : Frame (Label K T)) (child : Option Ptr) : TreeNode K T :=
  match f with
  | .left a r => a.cell child (root r)
  | .right l a => a.cell (root l) child

/-- The pointers of a frame and of its subtree. -/
theorem holds_fill_iff {h : Heap K T} :
    Holds h (f.fill s) ↔ h.read f.label.ptr = some (frameCell f (root s)) ∧ Holds h f.sibling ∧ Holds h s := by
  cases f with
  | left a r => exact and_congr_right fun _ => and_comm
  | right l a => exact Iff.rfl

/-- A subtree grows, and with it the tree around it. -/
theorem Grown.fill (hs : Holds t.heap (f.fill s)) (hd : (ptrs (f.fill s).inorder).Nodup) (h : Grown t t' new s s') :
    Grown t t' new (f.fill s) (f.fill s') := by
  obtain ⟨hcell, hsib, -⟩ := holds_fill_iff.mp hs
  obtain ⟨-, hfs, -, hdisj⟩ := nodup_map_fill hd
  refine ⟨holds_fill_iff.mpr ⟨?_, ?_, h.holds⟩, ?_, ptrs_fill_grown f h.ptrs_perm, h.val, h.size, ?_⟩
  · rw [h.rest _ (Arena.lt_size_of_read hcell) hfs, hcell, h.root_eq]
  · refine hsib.congr fun q hq => ?_
    exact h.rest q (hsib.lt_size q hq) (hdisj q hq)
  · rw [root_fill, root_fill]
  · intro q hlt hq
    refine h.rest q hlt fun hqs => ?_
    exact hq (mem_map_fill.mpr (Or.inr (Or.inl hqs)))

/-- A write of the pointer to the subtree of a frame. -/
theorem put_place {v child ptr : Option Ptr} {h : Heap K T} (hcell : h.read f.label.ptr = some (frameCell f child)) :
    ∃ h', (place f).put { val := v, heap := h } ptr = .ok { val := v, heap := h' } ∧ h'.size = h.size ∧
      ∀ q, h'.read q = if q = f.label.ptr then some (frameCell f ptr) else h.read q := by
  have hmodify : ∀ g : TreeNode K T → TreeNode K T, g (frameCell f child) = frameCell f ptr →
      ∀ q, (h.modify f.label.ptr g).read q = if q = f.label.ptr then some (frameCell f ptr) else h.read q := by
    intro g hg q
    rw [Arena.read_modify]
    split
    · rename_i hq
      rw [hq, hcell, Option.map_some, hg]
    · rfl
  cases f with
  | left a r =>
    refine ⟨h.modify a.ptr fun n => { n with left := ptr }, ?_, Arena.size_modify _ _ _, hmodify _ rfl⟩
    have hcell : h.read a.ptr = some (a.cell child (root r)) := hcell
    simp [place, Place.put, Heap.update, hcell]
  | right l a =>
    refine ⟨h.modify a.ptr fun n => { n with right := ptr }, ?_, Arena.size_modify _ _ _, hmodify _ rfl⟩
    have hcell : h.read a.ptr = some (a.cell (root l) child) := hcell
    simp [place, Place.put, Heap.update, hcell]

/-- The empty slot of a node is filled. -/
theorem plant_grown (hs : Holds t.heap (f.fill .nil)) (hd : (ptrs (f.fill .nil).inorder).Nodup) (alloc : Bool) (e : Entry K T) :
    ∃ t', plant t (place f) alloc e.key e.val = .ok t' ∧ Grown t t' (fresh t alloc) (f.fill .nil) (f.fill (planted t alloc e)) := by
  cases alloc with
  | false => exact ⟨t, rfl, Grown.refl hs⟩
  | true =>
    obtain ⟨hcell, hsib, -⟩ := holds_fill_iff.mp hs
    obtain ⟨-, -, hfs, -⟩ := nodup_map_fill hd
    have hlt := Arena.lt_size_of_read hcell
    have hcell' : (t.heap.alloc { left := none, right := none, key := e.key, val := e.val }).read f.label.ptr = some (frameCell f none) := by
      rw [Arena.read_alloc_of_lt _ _ hlt, hcell]
      rfl
    obtain ⟨h', hput, hsize, hread⟩ := @put_place _ _ f t.val none (some t.heap.size) _ hcell'
    have hkeep : ∀ q < t.heap.size, q ≠ f.label.ptr → h'.read q = t.heap.read q := by
      intro q hq hne
      rw [hread, if_neg hne, Arena.read_alloc_of_lt _ _ hq]
    refine ⟨{ val := t.val, heap := h' }, ?_, holds_fill_iff.mpr ⟨?_, ?_, ?_, trivial, trivial⟩, ?_, ptrs_fill_grown f ?_, rfl, ?_, ?_⟩
    · unfold plant
      rw [if_pos rfl]
      exact hput
    · rw [hread, if_pos rfl]
      rfl
    · refine hsib.congr fun q hq => hkeep q (hsib.lt_size q hq) ?_
      rintro rfl
      exact hfs hq
    · rw [hread, if_neg hlt.ne']
      exact Arena.read_alloc_size _ _
    · rw [root_fill, root_fill]
    · exact List.Perm.refl _
    · rw [hsize, Arena.size_alloc]
      rfl
    · intro q hlt hq
      refine hkeep q hlt ?_
      rintro rfl
      exact hq (mem_map_fill.mpr (Or.inl rfl))

/-! ## The descent -/

section

variable [LinearOrder K] {alloc : Bool} {e : Entry K T} {fuel : ℕ}

/-- An insert in the slot of a frame, given what it does in the node that is there. -/
theorem below_agree (hs : Holds t.heap (f.fill s)) (hd : (ptrs (f.fill s).inorder).Nodup)
    (ih : ∀ slf, root s = some slf → Runs.Agree (fun t' u => ∃ s', Grown t t' (fresh t alloc) s s' ∧ entries s' = u)
      (insertNode e.key e.val alloc fuel t slf) (BinarySearchTree.insert alloc e.key e.val (entries s))) :
    Runs.Agree (fun t' u => ∃ s', Grown t t' (fresh t alloc) (f.fill s) (f.fill s') ∧ entries s' = u)
      (match root s with
        | some child => insertNode e.key e.val alloc fuel t child
        | none => plant t (place f) alloc e.key e.val)
      (BinarySearchTree.insert alloc e.key e.val (entries s)) := by
  cases s with
  | nil =>
    obtain ⟨t', hplant, hgrown⟩ := plant_grown hs hd alloc e
    rw [root_nil, hplant]
    exact ⟨_, hgrown, entries_planted t alloc e⟩
  | node a l r =>
    refine (ih a.ptr rfl).mono fun t' u h => ?_
    obtain ⟨s', hgrown, hentries⟩ := h
    exact ⟨s', hgrown.fill hs hd, hentries⟩

/-- `TreeNode::insert` does in memory what it does on the tree of the same entries, and panics where that does. The induction is on the
tree: the slot of the descent is that of a subtree. -/
theorem insertNode_agree {slf : Ptr} (hs : Holds t.heap s) (hd : (ptrs s.inorder).Nodup) (hroot : root s = some slf)
    (hfuel : s.numNodes ≤ fuel) :
    Runs.Agree (fun t' u => ∃ s', Grown t t' (fresh t alloc) s s' ∧ entries s' = u)
      (insertNode e.key e.val alloc fuel t slf) (BinarySearchTree.insert alloc e.key e.val (entries s)) := by
  induction s generalizing slf fuel with
  | nil => cases hroot
  | node a l r ihl ihr =>
    cases hroot
    simp only [numNodes] at hfuel
    obtain ⟨fuel, rfl⟩ := Nat.exists_eq_add_of_le' (by omega : 1 ≤ fuel)
    obtain ⟨hdl, hdr, -⟩ := nodup_map_node hd
    obtain ⟨ha, hl, hr⟩ := hs
    have hnode : t.heap.node a.ptr = .ok (a.cell (root l) (root r)) := by
      rw [Heap.node, ha]
    have hleft := @below_agree _ _ t (.left a r) l _ alloc e fuel ⟨ha, hl, hr⟩ hd fun slf hslf => ihl hl hdl hslf (by omega)
    have hright := @below_agree _ _ t (.right l a) r _ alloc e fuel ⟨ha, hl, hr⟩ hd fun slf hslf => ihr hr hdr hslf (by omega)
    rw [insertNode, hnode, ok_bind, entries_node, BinarySearchTree.insert]
    rw [show (a.cell (root l) (root r)).key = a.entry.key from rfl]
    cases compare a.entry.key e.key with
    | lt =>
      refine hleft.map_right fun t' u h => ?_
      obtain ⟨l', hgrown, rfl⟩ := h
      exact ⟨.node a l' r, hgrown, rfl⟩
    | eq => exact rfl
    | gt =>
      refine hright.map_right fun t' u h => ?_
      obtain ⟨r', hgrown, rfl⟩ := h
      exact ⟨.node a l r', hgrown, rfl⟩

/-- An insert. -/
theorem Linked.insert (h : Linked t s) (alloc : Bool) (e : Entry K T) :
    Runs.Agree
      (fun t' u => ∃ s', Linked t' s' ∧ entries s' = u ∧ (ptrs s'.inorder).Perm (fresh t alloc ++ ptrs s.inorder) ∧
        t'.heap.size = t.heap.size + (fresh t alloc).length)
      (t.insert alloc e.key e.val) (BinarySearchTree.insert alloc e.key e.val (entries s)) := by
  obtain ⟨hval, hs, hd⟩ := h
  cases s with
  | nil =>
    cases alloc with
    | false =>
      rw [BstMemory.insert, hval]
      exact ⟨.nil, ⟨hval, trivial, hd⟩, rfl, List.Perm.refl _, rfl⟩
    | true =>
      rw [BstMemory.insert, hval]
      refine ⟨planted t true e, ⟨rfl, ⟨?_, trivial, trivial⟩, List.nodup_singleton _⟩, rfl, List.Perm.refl _, ?_⟩
      · exact Arena.read_alloc_size _ _
      · exact Arena.size_alloc _ _
  | node a l r =>
    rw [BstMemory.insert, hval]
    refine (insertNode_agree hs hd rfl (Nat.le_succ_of_le (hs.numNodes_le hd))).mono fun t' u hgrown => ?_
    obtain ⟨s', hgrown, rfl⟩ := hgrown
    refine ⟨s', ⟨?_, hgrown.holds, ?_⟩, rfl, hgrown.ptrs_perm, hgrown.size⟩
    · rw [hgrown.val, hgrown.root_eq, hval]
    · refine hgrown.ptrs_perm.nodup_iff.mpr ?_
      cases alloc with
      | false => exact hd
      | true =>
        refine List.nodup_cons.mpr ⟨fun hmem => ?_, hd⟩
        exact lt_irrefl _ (hs.lt_size _ hmem)

end

end BstMemory

end MiriWeirdness
