import Mathlib.Algebra.Order.Ring.Nat
import Mathlib.Data.Tree.Basic
import Mathlib.Data.List.Perm.Basic

/-!
# Binary trees in order

Statements about `BinaryTree`: its labels in order, trees ordered by a relation, and trees seen from one of their subtrees (a
path of frames above it). They hold for any labels and any relation.
-/

namespace BinaryTree

variable {α : Type*}

/-- Whether a tree has no node. -/
def isNil : BinaryTree α → Bool
  | nil => true
  | node _ _ _ => false

@[simp] theorem isNil_nil : (nil : BinaryTree α).isNil = true := rfl

@[simp] theorem isNil_node (a : α) (l r : BinaryTree α) : (node a l r).isNil = false := rfl

theorem isNil_iff {t : BinaryTree α} : t.isNil = true ↔ t = nil := by
  cases t <;> simp

/-- The labels of a tree, in order. -/
def inorder : BinaryTree α → List α
  | nil => []
  | node a l r => l.inorder ++ a :: r.inorder

@[simp] theorem inorder_nil : (nil : BinaryTree α).inorder = [] := rfl

@[simp] theorem inorder_node (a : α) (l r : BinaryTree α) : (node a l r).inorder = l.inorder ++ a :: r.inorder := rfl

theorem inorder_length (t : BinaryTree α) : t.inorder.length = t.numNodes := by
  induction t with
  | nil => rfl
  | node a l r ihl ihr =>
    simp only [inorder_node, List.length_append, List.length_cons, ihl, ihr, numNodes]
    omega

/-- The labels of a tree, those of a node's subtrees before its own. -/
def postorder : BinaryTree α → List α
  | nil => []
  | node a l r => l.postorder ++ r.postorder ++ [a]

@[simp] theorem postorder_nil : (nil : BinaryTree α).postorder = [] := rfl

@[simp] theorem postorder_node (a : α) (l r : BinaryTree α) : (node a l r).postorder = l.postorder ++ r.postorder ++ [a] := rfl

/-- Both orders are of the same labels. -/
theorem postorder_perm (t : BinaryTree α) : t.postorder.Perm t.inorder := by
  induction t with
  | nil => exact List.Perm.refl _
  | node a l r ihl ihr =>
    rw [postorder_node, inorder_node, List.append_assoc]
    refine ihl.append ?_
    exact (List.perm_append_singleton a r.postorder).trans (ihr.cons a)

/-! ## Trees with other labels -/

section

variable {β : Type*} (f : α → β)

@[simp] theorem map_nil : (nil : BinaryTree α).map f = nil := rfl

@[simp] theorem map_node (a : α) (l r : BinaryTree α) : (node a l r).map f = node (f a) (l.map f) (r.map f) := rfl

theorem inorder_map (t : BinaryTree α) : (t.map f).inorder = t.inorder.map f := by
  induction t with
  | nil => rfl
  | node a l r ihl ihr => simp [ihl, ihr]

theorem postorder_map (t : BinaryTree α) : (t.map f).postorder = t.postorder.map f := by
  induction t with
  | nil => rfl
  | node a l r ihl ihr => simp [ihl, ihr]

theorem numNodes_map (t : BinaryTree α) : (t.map f).numNodes = t.numNodes := by
  rw [← inorder_length, ← inorder_length, inorder_map, List.length_map]

/-- What distinct labels of a node show: the node's own and those of its subtrees, all different. -/
theorem nodup_map_node {f : α → β} {a : α} {l r : BinaryTree α} (hd : ((node a l r).inorder.map f).Nodup) :
    (l.inorder.map f).Nodup ∧ (r.inorder.map f).Nodup ∧ f a ∉ l.inorder.map f ∧ f a ∉ r.inorder.map f ∧
      ∀ b ∈ l.inorder.map f, b ∉ r.inorder.map f := by
  rw [inorder_node, List.map_append, List.map_cons, List.nodup_append, List.nodup_cons] at hd
  obtain ⟨hl, ⟨har, hr⟩, hdisj⟩ := hd
  refine ⟨hl, hr, ?_, har, ?_⟩
  · intro hal
    exact hdisj _ hal _ List.mem_cons_self rfl
  · intro b hbl hbr
    exact hdisj b hbl b (List.mem_cons_of_mem _ hbr) rfl

end

/-! ## Order -/

/-- At every node, the labels of the left subtree are related to the node's label, and the node's label to those of the right
subtree. -/
def Ordered (R : α → α → Prop) : BinaryTree α → Prop
  | nil => True
  | node a l r => l.Ordered R ∧ r.Ordered R ∧ (∀ b ∈ l.inorder, R b a) ∧ ∀ b ∈ r.inorder, R a b

/-- For a transitive relation, a tree is ordered exactly when its labels in order are. -/
theorem ordered_iff_pairwise {R : α → α → Prop} [IsTrans α R] (t : BinaryTree α) :
    t.Ordered R ↔ t.inorder.Pairwise R := by
  induction t with
  | nil => simp [Ordered]
  | node a l r ihl ihr =>
    simp only [Ordered, inorder_node, List.pairwise_append, List.pairwise_cons, List.mem_cons, ihl, ihr]
    constructor
    · rintro ⟨hl, hr, hla, har⟩
      refine ⟨hl, ⟨har, hr⟩, ?_⟩
      rintro b hb c (rfl | hc)
      · exact hla b hb
      · exact Trans.trans (hla b hb) (har c hc)
    · rintro ⟨hl, ⟨har, hr⟩, hlr⟩
      exact ⟨hl, hr, fun b hb => hlr b hb a (Or.inl rfl), har⟩

/-- A label of a node's left subtree, of the node itself or of its right subtree. -/
theorem mem_inorder_node {a b : α} {l r : BinaryTree α} :
    b ∈ (node a l r).inorder ↔ b ∈ l.inorder ∨ b = a ∨ b ∈ r.inorder := by
  simp [inorder_node]

/-- A tree that is not empty has a label. -/
theorem exists_mem_of_isNil_eq_false {t : BinaryTree α} (h : t.isNil = false) : ∃ a, a ∈ t.inorder := by
  cases t with
  | nil => cases h
  | node a l r => exact ⟨a, by simp⟩

/-! ## Paths -/

/-- A node without one of its children: the left one (`left`) or the right one (`right`). -/
inductive Frame (α : Type*) where
  | left (a : α) (r : BinaryTree α)
  | right (l : BinaryTree α) (a : α)
  deriving DecidableEq, Repr

/-- The label of the node. -/
def Frame.label : Frame α → α
  | .left a _ => a
  | .right _ a => a

/-- The child that is there. -/
def Frame.sibling : Frame α → BinaryTree α
  | .left _ r => r
  | .right l _ => l

/-- The node with its missing child filled in. -/
def Frame.fill : Frame α → BinaryTree α → BinaryTree α
  | .left a r, t => node a t r
  | .right l a, t => node a l t

section

variable {β : Type*} {g : α → β} {f : Frame α} {t : BinaryTree α}

theorem mem_map_fill {b : β} :
    b ∈ (f.fill t).inorder.map g ↔ b = g f.label ∨ b ∈ t.inorder.map g ∨ b ∈ f.sibling.inorder.map g := by
  cases f with
  | left a r =>
    simp only [Frame.fill, Frame.label, Frame.sibling, inorder_node, List.map_append, List.map_cons, List.mem_append, List.mem_cons]
    tauto
  | right l a =>
    simp only [Frame.fill, Frame.label, Frame.sibling, inorder_node, List.map_append, List.map_cons, List.mem_append, List.mem_cons]
    tauto

/-- What distinct labels around a subtree show. -/
theorem nodup_map_fill (hd : ((f.fill t).inorder.map g).Nodup) :
    (t.inorder.map g).Nodup ∧ g f.label ∉ t.inorder.map g ∧ g f.label ∉ f.sibling.inorder.map g ∧
      ∀ b ∈ f.sibling.inorder.map g, b ∉ t.inorder.map g := by
  cases f with
  | left a r =>
    obtain ⟨hl, -, hal, har, hdisj⟩ := nodup_map_node hd
    exact ⟨hl, hal, har, fun b hb hbl => hdisj b hbl hb⟩
  | right l a =>
    obtain ⟨-, hr, hal, har, hdisj⟩ := nodup_map_node hd
    exact ⟨hr, har, hal, hdisj⟩

end

/-- The tree seen from one of its subtrees: the frames above it, the nearest first, around the subtree. -/
def plug : List (Frame α) → BinaryTree α → BinaryTree α
  | [], t => t
  | f :: path, t => plug path (f.fill t)

@[simp] theorem plug_nil (t : BinaryTree α) : plug [] t = t := rfl

@[simp] theorem plug_cons (f : Frame α) (path : List (Frame α)) (t : BinaryTree α) :
    plug (f :: path) t = plug path (f.fill t) := rfl

theorem plug_append (path path' : List (Frame α)) (t : BinaryTree α) : plug (path ++ path') t = plug path' (plug path t) := by
  induction path generalizing t with
  | nil => rfl
  | cons f path ih => exact ih (f.fill t)

/-- The labels that a path has before its subtree, in order. -/
def before : List (Frame α) → List α
  | [] => []
  | .left _ _ :: path => before path
  | .right l a :: path => before path ++ l.inorder ++ [a]

/-- The labels that a path has after its subtree, in order. -/
def after : List (Frame α) → List α
  | [] => []
  | .left a r :: path => a :: r.inorder ++ after path
  | .right _ _ :: path => after path

/-- The labels of a tree seen from one of its subtrees. -/
theorem inorder_plug (path : List (Frame α)) (t : BinaryTree α) :
    (plug path t).inorder = before path ++ t.inorder ++ after path := by
  induction path generalizing t with
  | nil => simp [before, after]
  | cons f path ih =>
    cases f <;> simp [ih, before, after, Frame.fill]

theorem numNodes_plug (path : List (Frame α)) (t : BinaryTree α) :
    (plug path t).numNodes = (before path ++ after path).length + t.numNodes := by
  rw [← inorder_length, inorder_plug, ← inorder_length]
  simp only [List.length_append]
  omega

theorem length_le_numNodes_plug (path : List (Frame α)) (t : BinaryTree α) : path.length ≤ (plug path t).numNodes := by
  induction path generalizing t with
  | nil => exact Nat.zero_le _
  | cons f path ih =>
    have hpath : path.length ≤ (before path ++ after path).length := by
      simpa [numNodes_plug] using ih nil
    have hfill : 1 ≤ (f.fill t).numNodes := by
      cases f <;> simp [Frame.fill, numNodes]
    rw [plug_cons, numNodes_plug, List.length_cons]
    omega

theorem length_add_height_le (path : List (Frame α)) (t : BinaryTree α) : path.length + t.height ≤ (plug path t).height := by
  induction path generalizing t with
  | nil => simp
  | cons f path ih =>
    have hfill : t.height + 1 ≤ (f.fill t).height := by
      cases f <;> simp only [Frame.fill, height] <;> omega
    have := ih (f.fill t)
    rw [plug_cons, List.length_cons]
    omega

/-- A label of a tree is the label of one of its subtrees. -/
theorem exists_plug_of_mem {t : BinaryTree α} {a : α} (h : a ∈ t.inorder) : ∃ path l r, t = plug path (node a l r) := by
  induction t with
  | nil => cases h
  | node b l r ihl ihr =>
    rcases mem_inorder_node.mp h with h | rfl | h
    · obtain ⟨path, l', r', rfl⟩ := ihl h
      refine ⟨path ++ [.left b r], l', r', ?_⟩
      rw [plug_append]
      rfl
    · exact ⟨[], l, r, rfl⟩
    · obtain ⟨path, l', r', rfl⟩ := ihr h
      refine ⟨path ++ [.right l b], l', r', ?_⟩
      rw [plug_append]
      rfl

/-! ## The mirror image -/

/-- The mirror image of a tree. -/
def mirror : BinaryTree α → BinaryTree α
  | nil => nil
  | node a l r => node a r.mirror l.mirror

@[simp] theorem mirror_nil : (nil : BinaryTree α).mirror = nil := rfl

@[simp] theorem mirror_node (a : α) (l r : BinaryTree α) : (node a l r).mirror = node a r.mirror l.mirror := rfl

@[simp] theorem mirror_mirror (t : BinaryTree α) : t.mirror.mirror = t := by
  induction t with
  | nil => rfl
  | node a l r ihl ihr => simp [ihl, ihr]

/-- The labels of the mirror image are those of the tree in the opposite order. -/
@[simp] theorem inorder_mirror (t : BinaryTree α) : t.mirror.inorder = t.inorder.reverse := by
  induction t with
  | nil => rfl
  | node a l r ihl ihr => simp [ihl, ihr]

end BinaryTree
