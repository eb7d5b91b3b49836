import MiriWeirdness.Lemmas.RbFixup
import MiriWeirdness.Lemmas.RbMirror

/-!
# What the rotations keep

A left rotation puts a right child in the place of its parent, anywhere in a tree, and changes the links of at most four nodes. The two
rotations are written separately. They are mirror images of each other where the rotated node's parent is a root; below it, a left
rotation relinks the node above and a right rotation does not.
-/

namespace MiriWeirdness.RbTree

open BinaryTree

variable {K T : Type}

/-! ## The left rotation -/

/-- What a node holds besides its links. -/
def TreeNode.data (n : TreeNode K T) : K × T × Color := (n.key, n.val, n.color)

/-- The node `x` has taken the place of its parent `p`, on the side of `p` below the node above, if there is one; `p` is its left child
and has its former left child on the right; no other cell has changed, and none in what it holds besides its links. -/
structure TakesPlace (h h' : Heap K T) (x p : Ptr) (nx np : TreeNode K T) : Prop where
  this : h'.read x = some { nx with parent := np.parent, left := some p }
  parent : h'.read p = some { np with parent := some x, right := nx.left }
  inner : ∀ a na, nx.left = some a → h.read a = some na → h'.read a = some { na with parent := some p }
  above : ∀ g ng, np.parent = some g → h.read g = some ng → ∃ dir, ng.childDir p = .ok dir ∧ h'.read g = some (ng.setChild dir x)
  rest : ∀ q, q ≠ x → q ≠ p → nx.left ≠ some q → np.parent ≠ some q → h'.read q = h.read q
  data : ∀ q, (h'.read q).map TreeNode.data = (h.read q).map TreeNode.data

@[simp] theorem TreeNode.data_relink (n : TreeNode K T) (p x : Ptr) : (n.relink p x).data = n.data := by
  unfold TreeNode.relink
  split <;> rfl

/-- Relinking a node sets the child on the side of the former one. -/
theorem TreeNode.relink_eq {n : TreeNode K T} {p : Ptr} (x : Ptr) (h : n.left = some p ∨ n.right = some p) :
    ∃ dir, n.childDir p = .ok dir ∧ n.relink p x = n.setChild dir x := by
  unfold TreeNode.childDir TreeNode.relink
  by_cases hl : n.left = some p
  · exact ⟨.left, if_pos hl, if_pos hl⟩
  · have hr : n.right = some p := h.resolve_left hl
    exact ⟨.right, by rw [if_neg hl, if_pos hr], if_neg hl⟩

/-- A left rotation changes links only. -/
theorem RotatesLeft.data {h h' : Heap K T} {x p : Ptr} {nx np : TreeNode K T} (ht : RotatesLeft h h' x p nx np)
    (hx : h.read x = some nx) (hp : h.read p = some np) (q : Ptr) : (h'.read q).map TreeNode.data = (h.read q).map TreeNode.data := by
  by_cases hqx : q = x
  · rw [hqx, ht.this, hx]
    rfl
  by_cases hqp : q = p
  · rw [hqp, ht.parent, hp]
    rfl
  cases hq : h.read q with
  | none =>
    have hle : h.size ≤ q := List.getElem?_eq_none_iff.mp hq
    rw [← ht.size] at hle
    have hq' : h'.read q = none := List.getElem?_eq_none_iff.mpr hle
    rw [hq']
  | some n =>
    by_cases hql : nx.left = some q
    · rw [ht.inner q n hql hq]
      rfl
    by_cases hqg : np.parent = some q
    · rw [ht.above q n hqg hq, Option.map_some, TreeNode.data_relink]
      rfl
    · rw [ht.rest q hqx hqp hql hqg, hq]

/-- A node with a parent in a tree that a heap holds, and its surroundings. -/
theorem Focus.at_child {h : Heap K T} {t : Shape K T} (hf : Focus h [] t) {x p : Ptr} {nx : TreeNode K T} (hx : x ∈ ptrs t.inorder)
    (hr : h.read x = some nx) (hp : nx.parent = some p) :
    ∃ f path a l r, a.ptr = x ∧ f.label.ptr = p ∧ t = plug (f :: path) (.node a l r) ∧ Focus h (f :: path) (.node a l r) := by
  obtain ⟨path, a, l, r, rfl, ht, hfx⟩ := hf.at_mem hx
  have hcell : nx = a.cell (top path) (root l) (root r) := Option.some.inj (hr.symm.trans hfx.read)
  rw [hcell] at hp
  cases path with
  | nil => cases hp
  | cons f path => exact ⟨f, path, a, l, r, rfl, Option.some.inj hp, ht, hfx⟩

/-- In every tree that a heap holds, and at every node of it that is the right child of its parent: a left rotation does not panic, what
the heap holds then is a tree with the same labels in order, the node has taken its parent's place, and other cells are as they were. -/
theorem rotLeftPar_takes_place {h : Heap K T} {t : Shape K T} (hf : Focus h [] t) {x p : Ptr} {nx np : TreeNode K T}
    (hmem : x ∈ ptrs t.inorder) (hx : h.read x = some nx) (hxp : nx.parent = some p) (hp : h.read p = some np)
    (hright : np.right = some x) :
    ∃ h' t', rotLeftPar h x = .ok h' ∧ Focus h' [] t' ∧ t'.inorder = t.inorder ∧
      (root t' = if np.parent = none then some x else root t) ∧ TakesPlace h h' x p nx np := by
  obtain ⟨f, path, a, l, r, rfl, rfl, rfl, hfx⟩ := hf.at_child hmem hx hxp
  cases f with
  | left b ps =>
    -- the node would be in its own sibling
    have hcell : np = b.cell (top path) (some a.ptr) (root ps) := Option.some.inj (hp.symm.trans hfx.above.1)
    rw [hcell] at hright
    refine absurd ?_ hfx.ptr_not_mem
    exact mem_ptrs_path.mpr (Or.inr (Or.inl (mem_ptrs_of_root hright)))
  | right ps b =>
    obtain rfl : nx = a.cell (some b.ptr) (root l) (root r) := Option.some.inj (hx.symm.trans hfx.read)
    obtain rfl : np = b.cell (top path) (root ps) (some a.ptr) := Option.some.inj (hp.symm.trans hfx.above.1)
    obtain ⟨h', hrot, hturn, hf'⟩ := hfx.rotatesLeft
    refine ⟨h', plug path (.node a (.node b ps l) r), hrot, focus_plug_iff.mpr hf', ?_, ?_, hturn.this, hturn.parent, hturn.inner, ?_,
      hturn.rest, hturn.data hx hp⟩
    · simp [inorder_plug, Frame.fill]
    · cases path with
      | nil => rfl
      | cons g path => exact root_plug (List.cons_ne_nil g path) _ _
    · intro g ng hg hng
      obtain ⟨n, hn, hchild⟩ := hfx.above.2.2.read_top hg
      obtain rfl : ng = n := Option.some.inj (hng.symm.trans hn)
      obtain ⟨dir, hdir, hrelink⟩ := TreeNode.relink_eq a.ptr hchild
      refine ⟨dir, hdir, ?_⟩
      rw [hturn.above g ng hg hng, hrelink]

/-- A root whose left child has a right child with a left child. -/
def bend : Shape ℕ ℕ :=
  .node ⟨0, .black, 4, 0⟩ (.node ⟨1, .red, 1, 0⟩ .nil (.node ⟨2, .black, 3, 0⟩ (.node ⟨3, .red, 2, 0⟩ .nil .nil) .nil)) .nil

/-- The cells of that tree. -/
def bendHeap : Heap ℕ ℕ :=
  ⟨[⟨none, some 1, none, .black, 4, 0⟩, ⟨some 0, none, some 2, .red, 1, 0⟩, ⟨some 1, some 3, none, .black, 3, 0⟩,
    ⟨some 2, none, none, .red, 2, 0⟩]⟩

/-- The rotated node becomes the root's left child, and its own left child moves to its former parent. -/
theorem rotLeftPar_takes_place_bend :
    ∃ h' t', rotLeftPar bendHeap 2 = .ok h' ∧ Focus h' [] t' ∧ t'.inorder = bend.inorder ∧
      (root t' = if some 0 = none then some 2 else root bend) ∧
      TakesPlace bendHeap h' 2 1 ⟨some 1, some 3, none, .black, 3, 0⟩ ⟨some 0, none, some 2, .red, 1, 0⟩ := by
  have hf : Focus bendHeap [] bend := ⟨trivial, ⟨rfl, ⟨rfl, trivial, ⟨rfl, ⟨rfl, trivial, trivial⟩, trivial⟩⟩, trivial⟩, by decide⟩
  have hmem : 2 ∈ ptrs bend.inorder := by decide
  exact rotLeftPar_takes_place hf hmem rfl rfl rfl rfl

/-! ## The mirror image -/

/-- On every heap whose links agree, a right rotation of a left child is the mirror image of a left rotation on the mirrored heap if and
only if the parent of the rotated node has no parent; and then both keep the links, and the labels in order of every tree that the heap
holds. -/
theorem rotRightPar_mirrors_iff {h : Heap K T} (hl : LinksAgree h) {x p : Ptr} {nx np : TreeNode K T} (hx : h.read x = some nx)
    (hxp : nx.parent = some p) (hp : h.read p = some np) (hleft : np.left = some x) :
    ((rotRightPar h x).map Heap.mirror = rotLeftPar h.mirror x ↔ np.parent = none) ∧
      (np.parent = none → KeepsTrees h (rotRightPar h x) ∧ KeepsTrees h.mirror (rotLeftPar h.mirror x)) := by
  have hmirror : np.parent = none → (rotRightPar h x).map Heap.mirror = rotLeftPar h.mirror x :=
    fun hpp => rotRightPar_mirror hl hx hxp hp hpp hleft
  refine ⟨⟨fun heq => ?_, hmirror⟩, fun hpp => ?_⟩
  · obtain ⟨h', hr⟩ := rotRightPar_ok hl hx hxp hp
    rw [hr] at heq
    rcases rotLeftPar_mirror_cases hx hxp hp hr with herr | ⟨hne, above, hrel, hnone⟩
    · rw [herr] at heq
      cases heq
    · cases above with
      | none => exact hnone rfl
      | some g => exact absurd (hrel.symm.trans heq.symm) (Heap.relinkAbove_ne hne)
  · have hk := rotRightPar_keeps hl hx hxp hp hpp hleft
    refine ⟨hk, ?_⟩
    rw [← hmirror hpp]
    exact hk.mirror

/-- A chain of three nodes that goes left. -/
def chain : Heap ℕ ℕ :=
  ⟨[⟨none, some 1, none, .black, 3, 0⟩, ⟨some 0, some 2, none, .red, 2, 0⟩, ⟨some 1, none, none, .red, 1, 0⟩]⟩

theorem chain_linksAgree : LinksAgree chain := by
  refine Focus.linksAgree (t := .node ⟨0, .black, 3, 0⟩ (.node ⟨1, .red, 2, 0⟩ (.node ⟨2, .red, 1, 0⟩ .nil .nil) .nil) .nil)
    ⟨trivial, ⟨rfl, ⟨rfl, ⟨rfl, trivial, trivial⟩, trivial⟩, trivial⟩, by decide⟩ (by decide)

/-- In the chain, the rotation of the node below the root. -/
theorem rotRightPar_mirrors_iff_chain :
    ((rotRightPar chain 1).map Heap.mirror = rotLeftPar chain.mirror 1 ↔ (none : Option Ptr) = none) ∧
      ((none : Option Ptr) = none → KeepsTrees chain (rotRightPar chain 1) ∧ KeepsTrees chain.mirror (rotLeftPar chain.mirror 1)) :=
  @rotRightPar_mirrors_iff ℕ ℕ chain chain_linksAgree 1 0 ⟨some 0, some 2, none, .red, 2, 0⟩ ⟨none, some 1, none, .black, 3, 0⟩
    rfl rfl rfl rfl

/-- In the chain, the rotation of the lowest node: the root keeps its child pointer to a node that is no longer below it. -/
theorem rotRightPar_leaves_child :
    LinksAgree chain ∧ (rotRightPar chain 2).map Heap.mirror ≠ rotLeftPar chain.mirror 2 ∧ ¬KeepsTrees chain (rotRightPar chain 2) := by
  refine ⟨chain_linksAgree, by decide, ?_⟩
  rintro ⟨h', hr, hl, -⟩
  have heq : rotRightPar chain 2 = .ok ⟨[⟨none, some 1, none, .black, 3, 0⟩, ⟨some 2, none, none, .red, 2, 0⟩,
      ⟨some 0, none, some 1, .red, 1, 0⟩]⟩ := rfl
  obtain rfl := Except.ok.inj (heq.symm.trans hr)
  obtain ⟨m, hm, hmp⟩ := hl.children 0 _ 1 rfl (Or.inl rfl)
  obtain rfl := Option.some.inj hm
  cases hmp

end MiriWeirdness.RbTree
