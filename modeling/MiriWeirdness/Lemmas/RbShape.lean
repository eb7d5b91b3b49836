import Mathlib.Data.List.Nodup
import MiriWeirdness.RbTree
import MiriWeirdness.Library.Trees

/-!
# The tree a heap holds

A shape is the tree as a value: its labels carry the address, the colour, the key and the value of a node. `Holds` says that the nodes
of a heap are linked as a shape, to the parents as well as to the children; `Focus` says so of a shape seen from one of its subtrees.
A write through a pointer is a change of one label of the focus, and the lemmas here say which.
-/

namespace MiriWeirdness.RbTree

open BinaryTree

variable {K T : Type}

/-- A node of a shape. -/
structure Label (K T : Type) where
  ptr : Ptr
  color : Color
  key : K
  val : T
  deriving DecidableEq, Repr

/-- The cell of a label whose node has these neighbours. -/
def Label.cell (a : Label K T) (parent left right : Option Ptr) : TreeNode K T :=
  { parent, left, right, color := a.color, key := a.key, val := a.val }

abbrev Shape (K T : Type) := BinaryTree (Label K T)

/-- The frames above a subtree of a shape. -/
abbrev Path (K T : Type) := List (Frame (Label K T))

/-- The side of the child that a frame leaves out. -/
def side : Frame (Label K T) → Direction
  | .left _ _ => .left
  | .right _ _ => .right

/-- The address of the root of a shape. -/
def root : Shape K T → Option Ptr
  | .nil => none
  | .node a _ _ => some a.ptr

/-- The address of the node above a path's subtree. -/
def top (path : Path K T) : Option Ptr := path.head?.map (·.label.ptr)

/-- The addresses of a list of labels. -/
def ptrs (as : List (Label K T)) : List Ptr := as.map (·.ptr)

@[simp] theorem root_nil : root (.nil : Shape K T) = none := rfl
@[simp] theorem root_node (a : Label K T) (l r : Shape K T) : root (.node a l r) = some a.ptr := rfl
@[simp] theorem top_nil : top ([] : Path K T) = none := rfl
@[simp] theorem top_cons (f : Frame (Label K T)) (path : Path K T) : top (f :: path) = some f.label.ptr := rfl
@[simp] theorem ptrs_nil : ptrs ([] : List (Label K T)) = [] := rfl
@[simp] theorem ptrs_cons (a : Label K T) (as : List (Label K T)) : ptrs (a :: as) = a.ptr :: ptrs as := rfl
@[simp] theorem ptrs_append (as bs : List (Label K T)) : ptrs (as ++ bs) = ptrs as ++ ptrs bs := List.map_append

theorem mem_ptrs_of_root {t : Shape K T} {p : Ptr} (h : root t = some p) : p ∈ ptrs t.inorder := by
  cases t with
  | nil => cases h
  | node a l r =>
    cases h
    simp

theorem exists_node_of_root {t : Shape K T} {p : Ptr} (h : root t = some p) : ∃ a l r, t = .node a l r ∧ p = a.ptr := by
  cases t with
  | nil => cases h
  | node a l r =>
    cases h
    exact ⟨a, l, r, rfl, rfl⟩

/-- The nodes of a path are those of its nearest frame and those of the others. -/
theorem ptrs_path_perm (f : Frame (Label K T)) (path : Path K T) :
    (ptrs (before (f :: path) ++ after (f :: path))).Perm
      (f.label.ptr :: (ptrs f.sibling.inorder ++ ptrs (before path ++ after path))) := by
  rw [List.perm_iff_count]
  intro q
  cases f with
  | left a r =>
    simp only [before, after, Frame.label, Frame.sibling, ptrs_append, ptrs_cons, List.cons_append, List.count_append, List.count_cons]
    omega
  | right l a =>
    simp only [before, after, Frame.label, Frame.sibling, ptrs_append, ptrs_cons, ptrs_nil, List.count_append, List.count_cons,
      List.count_nil]
    omega

theorem mem_ptrs_path {f : Frame (Label K T)} {path : Path K T} {q : Ptr} :
    q ∈ ptrs (before (f :: path) ++ after (f :: path)) ↔
      q = f.label.ptr ∨ q ∈ ptrs f.sibling.inorder ∨ q ∈ ptrs (before path ++ after path) := by
  rw [(ptrs_path_perm f path).mem_iff, List.mem_cons, List.mem_append]

/-- The heap holds the shape, below `parent`. -/
def Holds (h : Heap K T) (parent : Option Ptr) : Shape K T → Prop
  | .nil => True
  | .node a l r => h.read a.ptr = some (a.cell parent (root l) (root r)) ∧ Holds h (some a.ptr) l ∧ Holds h (some a.ptr) r

/-- The heap holds the frames of a path, around a subtree with the root `child`. -/
def HoldsPath (h : Heap K T) (child : Option Ptr) : Path K T → Prop
  | [] => True
  | .left a r :: path =>
    h.read a.ptr = some (a.cell (top path) child (root r)) ∧ Holds h (some a.ptr) r ∧ HoldsPath h (some a.ptr) path
  | .right l a :: path =>
    h.read a.ptr = some (a.cell (top path) (root l) child) ∧ Holds h (some a.ptr) l ∧ HoldsPath h (some a.ptr) path

/-- A shape is held by every heap that agrees on its addresses. -/
theorem Holds.congr {h h' : Heap K T} {parent : Option Ptr} {t : Shape K T} (ht : Holds h parent t)
    (hr : ∀ p ∈ ptrs t.inorder, h'.read p = h.read p) : Holds h' parent t := by
  induction t generalizing parent with
  | nil => trivial
  | node a l r ihl ihr =>
    obtain ⟨ha, hl, hr'⟩ := ht
    refine ⟨?_, ihl hl fun p hp => hr p ?_, ihr hr' fun p hp => hr p ?_⟩
    · rw [hr a.ptr (by simp), ha]
    · simp [hp]
    · simp [hp]

/-- A path is held by every heap that agrees on its addresses. -/
theorem HoldsPath.congr {h h' : Heap K T} {child : Option Ptr} {path : Path K T} (hp : HoldsPath h child path)
    (hr : ∀ p ∈ ptrs (before path ++ after path), h'.read p = h.read p) : HoldsPath h' child path := by
  induction path generalizing child with
  | nil => trivial
  | cons f path ih =>
    cases f with
    | left a r =>
      obtain ⟨ha, hs, hp⟩ := hp
      refine ⟨?_, hs.congr fun p hp => hr p ?_, ih hp fun p hp => hr p ?_⟩
      · rw [hr a.ptr (by simp [before, after]), ha]
      · simp [before, after, hp]
      · simp only [ptrs_append, List.mem_append] at hp
        rcases hp with hp | hp <;> simp [before, after, hp]
    | right l a =>
      obtain ⟨ha, hs, hp⟩ := hp
      refine ⟨?_, hs.congr fun p hp => hr p ?_, ih hp fun p hp => hr p ?_⟩
      · rw [hr a.ptr (by simp [before, after]), ha]
      · simp [before, after, hp]
      · simp only [ptrs_append, List.mem_append] at hp
        rcases hp with hp | hp <;> simp [before, after, hp]

/-- A shape whose root gets another parent pointer, and nothing else, is held below that parent. -/
theorem Holds.reparent {h h' : Heap K T} {parent parent' : Option Ptr} {t : Shape K T} (ht : Holds h parent t)
    (hroot : ∀ a n, root t = some a → h.read a = some n → h'.read a = some { n with parent := parent' })
    (hr : ∀ p ∈ ptrs t.inorder, root t ≠ some p → h'.read p = h.read p) (hd : (ptrs t.inorder).Nodup) : Holds h' parent' t := by
  cases t with
  | nil => trivial
  | node a l r =>
    obtain ⟨ha, hl, hr'⟩ := ht
    simp only [inorder_node, ptrs_append, ptrs_cons] at hr hd
    have hd := List.nodup_middle.mp hd
    rw [List.nodup_cons, List.mem_append] at hd
    refine ⟨hroot a.ptr _ rfl ha, hl.congr fun p hp => hr p (by simp [hp]) ?_, hr'.congr fun p hp => hr p (by simp [hp]) ?_⟩
    · rintro ⟨⟩
      exact hd.1 (Or.inl hp)
    · rintro ⟨⟩
      exact hd.1 (Or.inr hp)

/-- The node above `p` gets the child `x` in place of `p`. -/
def TreeNode.relink (n : TreeNode K T) (p x : Ptr) : TreeNode K T :=
  if n.left = some p then { n with left := some x } else { n with right := some x }

theorem TreeNode.setChild_eq (n : TreeNode K T) (dir : Direction) (p : Ptr) : n.setChild dir p = n.putChild dir (some p) := by
  cases dir <;> rfl

/-- A path whose nearest node gets another child pointer where its subtree is, and nothing else, is held around that child. -/
theorem HoldsPath.putChild {h h' : Heap K T} {child x : Option Ptr} {f : Frame (Label K T)} {path : Path K T}
    (hp : HoldsPath h child (f :: path))
    (hnew : ∀ n, h.read f.label.ptr = some n → h'.read f.label.ptr = some (n.putChild (side f) x))
    (hr : ∀ q ∈ ptrs (before (f :: path) ++ after (f :: path)), q ≠ f.label.ptr → h'.read q = h.read q)
    (hd : (ptrs (before (f :: path) ++ after (f :: path))).Nodup) : HoldsPath h' x (f :: path) := by
  have hd := (ptrs_path_perm f path).nodup_iff.mp hd
  rw [List.nodup_cons, List.mem_append, not_or] at hd
  obtain ⟨⟨hfs, hfp⟩, -⟩ := hd
  have hsib : ∀ q ∈ ptrs f.sibling.inorder, h'.read q = h.read q := by
    intro q hq
    refine hr q (mem_ptrs_path.mpr (Or.inr (Or.inl hq))) ?_
    rintro rfl
    exact hfs hq
  have habove : ∀ q ∈ ptrs (before path ++ after path), h'.read q = h.read q := by
    intro q hq
    refine hr q (mem_ptrs_path.mpr (Or.inr (Or.inr hq))) ?_
    rintro rfl
    exact hfp hq
  cases f with
  | left a r =>
    obtain ⟨ha, hs, hrest⟩ := hp
    exact ⟨hnew _ ha, hs.congr hsib, hrest.congr habove⟩
  | right l a =>
    obtain ⟨ha, hs, hrest⟩ := hp
    exact ⟨hnew _ ha, hs.congr hsib, hrest.congr habove⟩

/-- A path whose nearest node gets the child `x` in place of `p` is held around that child. -/
theorem HoldsPath.relink {h h' : Heap K T} {p x : Ptr} {path : Path K T} (hp : HoldsPath h (some p) path)
    (hnew : ∀ g n, top path = some g → h.read g = some n → h'.read g = some (n.relink p x))
    (hr : ∀ q ∈ ptrs (before path ++ after path), top path ≠ some q → h'.read q = h.read q)
    (hd : (p :: ptrs (before path ++ after path)).Nodup) : HoldsPath h' (some x) path := by
  cases path with
  | nil => trivial
  | cons f path =>
    refine hp.putChild (fun n hn => ?_) (fun q hq hne => hr q hq ?_) (List.nodup_cons.mp hd).2
    · rw [hnew f.label.ptr n rfl hn]
      cases f with
      | left a r =>
        obtain rfl : a.cell (top path) (some p) (root r) = n := Option.some.inj (hp.1.symm.trans hn)
        simp [TreeNode.relink, TreeNode.putChild, side, Label.cell]
      | right l a =>
        have hl : root l ≠ some p := fun h => by
          have := mem_ptrs_of_root h
          simp [before, after, this] at hd
        obtain rfl : a.cell (top path) (root l) (some p) = n := Option.some.inj (hp.1.symm.trans hn)
        simp [TreeNode.relink, TreeNode.putChild, side, Label.cell, hl]
    · simpa using hne.symm

/-! ## A shape seen from one of its subtrees -/

/-- The heap holds the frames of `path` around the shape `t`, at distinct addresses. -/
structure Focus (h : Heap K T) (path : Path K T) (t : Shape K T) : Prop where
  above : HoldsPath h (root t) path
  below : Holds h (top path) t
  distinct : (ptrs (plug path t).inorder).Nodup

/-- Looking at a child instead of its parent. -/
theorem focus_cons_iff {h : Heap K T} {f : Frame (Label K T)} {path : Path K T} {t : Shape K T} :
    Focus h (f :: path) t ↔ Focus h path (f.fill t) := by
  cases f with
  | left a r =>
    constructor
    · rintro ⟨⟨ha, hr, hp⟩, ht, hd⟩
      exact ⟨hp, ⟨ha, ht, hr⟩, hd⟩
    · rintro ⟨hp, ⟨ha, ht, hr⟩, hd⟩
      exact ⟨⟨ha, hr, hp⟩, ht, hd⟩
  | right l a =>
    constructor
    · rintro ⟨⟨ha, hl, hp⟩, ht, hd⟩
      exact ⟨hp, ⟨ha, hl, ht⟩, hd⟩
    · rintro ⟨hp, ⟨ha, hl, ht⟩, hd⟩
      exact ⟨⟨ha, hl, hp⟩, ht, hd⟩

/-- Looking at the whole shape. -/
theorem focus_plug_iff {h : Heap K T} {path : Path K T} {t : Shape K T} : Focus h [] (plug path t) ↔ Focus h path t := by
  induction path generalizing t with
  | nil => rfl
  | cons f path ih => rw [plug_cons, ih, focus_cons_iff]

/-- The node of the focus. -/
theorem Focus.read {h : Heap K T} {path : Path K T} {a : Label K T} {l r : Shape K T} (hf : Focus h path (.node a l r)) :
    h.read a.ptr = some (a.cell (top path) (root l) (root r)) :=
  hf.below.1

/-- A node of a tree that a heap holds, and its surroundings. -/
theorem Focus.at_mem {h : Heap K T} {t : Shape K T} (hf : Focus h [] t) {q : Ptr} (hq : q ∈ ptrs t.inorder) :
    ∃ path a l r, a.ptr = q ∧ t = plug path (.node a l r) ∧ Focus h path (.node a l r) := by
  obtain ⟨a, ha, rfl⟩ := List.mem_map.mp hq
  obtain ⟨path, l, r, rfl⟩ := exists_plug_of_mem ha
  exact ⟨path, a, l, r, rfl, rfl, focus_plug_iff.mp hf⟩

end MiriWeirdness.RbTree
