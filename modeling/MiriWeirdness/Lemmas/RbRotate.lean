import MiriWeirdness.Lemmas.RbShape

/-!
# Writes and rotations on a shape

What `set_color`, `rot_left_par` and `rot_right_par` do to the shape a heap holds. A left rotation relinks the node above and turns the
shape; a right rotation does so only where there is no node above, for it leaves that node's child pointer as it was.
-/

namespace MiriWeirdness.RbTree

open BinaryTree

variable {K T : Type}

/-- Reading through a pointer to a node. -/
theorem Heap.node_eq {h : Heap K T} {p : Ptr} {n : TreeNode K T} (hp : h.read p = some n) : h.node p = .ok n := by
  simp [Heap.node, hp]

/-- Writing through a pointer to a node. -/
theorem Heap.update_eq {h : Heap K T} {p : Ptr} {n : TreeNode K T} (f : TreeNode K T → TreeNode K T) (hp : h.read p = some n) :
    h.update p f = .ok (h.modify p f) := by
  simp [Heap.update, hp]

/-- A child is a left or a right one, or the assertion fails. -/
theorem TreeNode.childDir_cases (n : TreeNode K T) (child : Ptr) :
    n.childDir child = .ok .left ∨ n.childDir child = .ok .right ∨ n.childDir child = .error assertion := by
  unfold TreeNode.childDir
  split
  · exact Or.inl rfl
  · split
    · exact Or.inr (Or.inl rfl)
    · exact Or.inr (Or.inr rfl)

/-! ## Colours -/

/-- The shape with another colour at its root. -/
def paint (c : Color) : Shape K T → Shape K T
  | .nil => .nil
  | .node a l r => .node { a with color := c } l r

@[simp] theorem root_paint (c : Color) (t : Shape K T) : root (paint c t) = root t := by
  cases t <;> rfl

/-- Two shapes with the same addresses in order keep them so inside the same path. -/
theorem ptrs_plug_congr {path : Path K T} {t t' : Shape K T} (h : ptrs t.inorder = ptrs t'.inorder) :
    ptrs (plug path t).inorder = ptrs (plug path t').inorder := by
  simp [inorder_plug, h]

/-- The addresses of a shape, of the path above it and of both are distinct. -/
theorem Focus.nodup {h : Heap K T} {path : Path K T} {t : Shape K T} (hf : Focus h path t) :
    (ptrs t.inorder ++ ptrs (before path ++ after path)).Nodup := by
  have hd := hf.distinct
  simp only [inorder_plug, ptrs_append] at hd ⊢
  refine (List.Perm.nodup_iff ?_).mp hd
  rw [List.append_assoc]
  exact (List.perm_append_comm_assoc _ _ _)

/-- The address of a node is none of those around it. -/
theorem Focus.ptr_not_mem {h : Heap K T} {path : Path K T} {a : Label K T} {l r : Shape K T} (hf : Focus h path (.node a l r)) :
    a.ptr ∉ ptrs (before path ++ after path) := by
  have hd := hf.nodup
  rw [List.nodup_append] at hd
  intro hm
  exact hd.2.2 a.ptr (by simp) a.ptr hm rfl

/-- A write through a pointer to the root of the focus that leaves the links. -/
theorem Focus.relabel {h : Heap K T} {path : Path K T} {a a' : Label K T} {l r : Shape K T} {f : TreeNode K T → TreeNode K T}
    (hf : Focus h path (.node a l r)) (hptr : a'.ptr = a.ptr)
    (hcell : f (a.cell (top path) (root l) (root r)) = a'.cell (top path) (root l) (root r)) :
    ∃ h', h.update a.ptr f = .ok h' ∧ h'.size = h.size ∧ Focus h' path (.node a' l r) := by
  have hd := hf.nodup
  rw [inorder_node, ptrs_append, ptrs_cons, List.append_assoc, List.cons_append, List.nodup_middle, List.nodup_cons, List.mem_append,
    List.mem_append, not_or, not_or] at hd
  obtain ⟨⟨hal, har, hap⟩, -⟩ := hd
  have hsame : ∀ q, q ≠ a.ptr → (h.modify a.ptr f).read q = h.read q := fun q hq => by rw [Arena.read_modify, if_neg hq]
  refine ⟨_, Heap.update_eq _ hf.read, Arena.size_modify _ _ _, ?_, ⟨?_, ?_, ?_⟩, ?_⟩
  · rw [root_node, hptr]
    refine hf.above.congr fun q hq => hsame q ?_
    rintro rfl
    exact hap hq
  · rw [hptr, Arena.read_modify, if_pos rfl, hf.read, ← hcell]
    rfl
  · rw [hptr]
    refine hf.below.2.1.congr fun q hq => hsame q ?_
    rintro rfl
    exact hal hq
  · rw [hptr]
    refine hf.below.2.2.congr fun q hq => hsame q ?_
    rintro rfl
    exact har hq
  · have hptrs : ptrs (BinaryTree.node a' l r).inorder = ptrs (BinaryTree.node a l r).inorder := by simp [hptr]
    rw [ptrs_plug_congr hptrs]
    exact hf.distinct

/-- `set_color` through a pointer to the root of the focus. -/
theorem Focus.setColor {h : Heap K T} {path : Path K T} {a : Label K T} {l r : Shape K T} (c : Color)
    (hf : Focus h path (.node a l r)) :
    ∃ h', h.setColor a.ptr c = .ok h' ∧ h'.size = h.size ∧ Focus h' path (paint c (.node a l r)) :=
  @Focus.relabel _ _ _ _ _ { a with color := c } _ _ _ hf rfl rfl

/-! ## Rotations -/

/-- The child that is adopted, if there is one, gets the parent; the other cells are untouched. -/
theorem Heap.adopt_reads (h : Heap K T) (child parent : Option Ptr)
    (hc : ∀ a, child = some a → ∃ n, h.read a = some n) :
    ∃ h', h.adopt child parent = .ok h' ∧ h'.size = h.size ∧
      ∀ q, h'.read q = if child = some q then (h.read q).map fun n => { n with parent := parent } else h.read q := by
  cases child with
  | none => exact ⟨h, rfl, rfl, fun q => rfl⟩
  | some a =>
    obtain ⟨n, hn⟩ := hc a rfl
    refine ⟨_, Heap.update_eq _ hn, Arena.size_modify _ _ _, fun q => ?_⟩
    rw [Arena.read_modify]
    by_cases hq : q = a
    · rw [if_pos hq, if_pos (congrArg some hq.symm)]
    · rw [if_neg hq, if_neg fun h => hq (Option.some.inj h).symm]

/-- The node above, if there is one, gets the child; the other cells are untouched. -/
theorem Heap.relinkAbove_reads (h : Heap K T) (above : Option Ptr) (p x : Ptr)
    (ha : ∀ g, above = some g → ∃ n, h.read g = some n ∧ (n.left = some p ∨ n.right = some p)) :
    ∃ h', h.relinkAbove above p x = .ok h' ∧ h'.size = h.size ∧
      ∀ q, h'.read q = if above = some q then (h.read q).map (·.relink p x) else h.read q := by
  cases above with
  | none => exact ⟨h, rfl, rfl, fun q => rfl⟩
  | some g =>
    obtain ⟨n, hn, hc⟩ := ha g rfl
    have hreads : ∀ f : TreeNode K T → TreeNode K T, f n = n.relink p x → ∀ q,
        (h.modify g f).read q = if some g = some q then (h.read q).map (·.relink p x) else h.read q := by
      intro f hf q
      rw [Arena.read_modify]
      by_cases hq : q = g
      · rw [if_pos hq, if_pos (congrArg some hq.symm), hq, hn, Option.map_some, Option.map_some, hf]
      · rw [if_neg hq, if_neg fun h => hq (Option.some.inj h).symm]
    by_cases hl : n.left = some p
    · refine ⟨_, ?_, Arena.size_modify _ _ _, hreads (fun n => { n with left := some x }) ?_⟩
      · simp [Heap.relinkAbove, Heap.node_eq hn, TreeNode.childDir, hl, Heap.update_eq _ hn]
      · simp [TreeNode.relink, hl]
    · have hr : n.right = some p := hc.resolve_left hl
      refine ⟨_, ?_, Arena.size_modify _ _ _, hreads (fun n => { n with right := some x }) ?_⟩
      · simp [Heap.relinkAbove, Heap.node_eq hn, TreeNode.childDir, hl, hr, Heap.update_eq _ hn]
      · simp [TreeNode.relink, hl]

/-- What a left rotation of `x` does to the cells: `x` takes the place of its parent `p`, `p` becomes its left child and takes over
its former left child, and the node above is relinked. -/
structure RotatesLeft (h h' : Heap K T) (x p : Ptr) (nx np : TreeNode K T) : Prop where
  size : h'.size = h.size
  this : h'.read x = some { nx with parent := np.parent, left := some p }
  parent : h'.read p = some { np with parent := some x, right := nx.left }
  inner : ∀ a na, nx.left = some a → h.read a = some na → h'.read a = some { na with parent := some p }
  above : ∀ g ng, np.parent = some g → h.read g = some ng → h'.read g = some (ng.relink p x)
  rest : ∀ q, q ≠ x → q ≠ p → nx.left ≠ some q → np.parent ≠ some q → h'.read q = h.read q

/-- The first writes of a rotation: `x` gets its parent for a child, and the child it had there gets the parent. -/
theorem Heap.handOver_reads {h : Heap K T} {x p : Ptr} {nx np : TreeNode K T} {child : Option Ptr} (f : TreeNode K T → TreeNode K T)
    (hx : h.read x = some nx) (hp : h.read p = some np) (hne : x ≠ p)
    (hc : ∀ a, child = some a → a ≠ x ∧ a ≠ p ∧ ∃ na, h.read a = some na) :
    ∃ h₁ h₂ : Heap K T, h₁ = h.modify x f ∧ h₁.read x = some (f nx) ∧ h₁.adopt child (some p) = .ok h₂ ∧ h₂.size = h.size ∧
      h₂.read x = some (f nx) ∧ h₂.read p = some np ∧
      ∀ q, q ≠ x → h₂.read q = if child = some q then (h.read q).map fun n => { n with parent := some p } else h.read q := by
  obtain ⟨h₁, hh₁⟩ : ∃ h₁ : Heap K T, h₁ = h.modify x f := ⟨_, rfl⟩
  have hr₁ : ∀ q, q ≠ x → h₁.read q = h.read q := fun q hq => by rw [hh₁, Arena.read_modify, if_neg hq]
  have hx₁ : h₁.read x = some (f nx) := by
    rw [hh₁, Arena.read_modify, if_pos rfl, hx]
    rfl
  obtain ⟨h₂, hadopt, hsize₂, hr₂⟩ := Heap.adopt_reads h₁ child (some p) fun a ha => by
    obtain ⟨hax, -, na, hna⟩ := hc a ha
    exact ⟨na, by rw [hr₁ a hax, hna]⟩
  refine ⟨h₁, h₂, hh₁, hx₁, hadopt, by rw [hsize₂, hh₁, Arena.size_modify], ?_, ?_, fun q hq => ?_⟩
  · rw [hr₂, if_neg (fun ha => (hc x ha).1 rfl), hx₁]
  · rw [hr₂, if_neg (fun ha => (hc p ha).2.1 rfl), hr₁ p hne.symm, hp]
  · rw [hr₂, hr₁ q hq]

/-- The next writes of a rotation: the parent lets go of `x` and becomes its child, and `x` gets the parent above. -/
theorem Heap.turn_reads {h : Heap K T} {x p : Ptr} {mx np : TreeNode K T} (f : TreeNode K T → TreeNode K T) (hx : h.read x = some mx)
    (hp : h.read p = some np) (hne : x ≠ p) :
    ∃ h₁ h₂ h₃ : Heap K T, h₁ = h.modify p f ∧ h₁.read p = some (f np) ∧ h₂ = h₁.modify p (fun n => { n with parent := some x }) ∧
      h₂.read x = some mx ∧ h₃ = h₂.modify x (fun n => { n with parent := np.parent }) ∧ h₃.size = h.size ∧
      ∀ q, h₃.read q = if q = x then some { mx with parent := np.parent }
        else if q = p then some { f np with parent := some x } else h.read q := by
  obtain ⟨h₁, hh₁⟩ : ∃ h₁ : Heap K T, h₁ = h.modify p f := ⟨_, rfl⟩
  obtain ⟨h₂, hh₂⟩ : ∃ h₂ : Heap K T, h₂ = h₁.modify p fun n => { n with parent := some x } := ⟨_, rfl⟩
  obtain ⟨h₃, hh₃⟩ : ∃ h₃ : Heap K T, h₃ = h₂.modify x fun n => { n with parent := np.parent } := ⟨_, rfl⟩
  have hp₁ : h₁.read p = some (f np) := by
    rw [hh₁, Arena.read_modify, if_pos rfl, hp]
    rfl
  have hx₂ : h₂.read x = some mx := by
    rw [hh₂, Arena.read_modify, if_neg hne, hh₁, Arena.read_modify, if_neg hne, hx]
  refine ⟨h₁, h₂, h₃, hh₁, hp₁, hh₂, hx₂, hh₃, by simp [hh₃, hh₂, hh₁], fun q => ?_⟩
  by_cases hqx : q = x
  · rw [hh₃, if_pos hqx, Arena.read_modify, if_pos hqx, hqx, hx₂]
    rfl
  by_cases hqp : q = p
  · rw [hh₃, if_neg hqx, if_pos hqp, Arena.read_modify, if_neg hqx, hh₂, Arena.read_modify, if_pos hqp, hqp, hp₁]
    rfl
  · rw [hh₃, if_neg hqx, if_neg hqp, Arena.read_modify, if_neg hqx, hh₂, Arena.read_modify, if_neg hqp, hh₁, Arena.read_modify,
      if_neg hqp]

/-- A left rotation up to its last write, between nodes that are different: it turns the two nodes if `x` is the right child of its
parent, and relinks the node above. -/
theorem rotLeftPar_eq {h : Heap K T} {x p : Ptr} {nx np : TreeNode K T} (hx : h.read x = some nx) (hp : h.read p = some np)
    (hxp : nx.parent = some p) (hne : x ≠ p) (hl : ∀ a, nx.left = some a → a ≠ x ∧ a ≠ p ∧ ∃ na, h.read a = some na) :
    ∃ h' : Heap K T, rotLeftPar h x = (np.childDir x >>= fun dir => if dir = .right then h'.relinkAbove np.parent p x else .error assertion) ∧
      h'.size = h.size ∧ ∀ q, h'.read q =
        if q = x then some { nx with parent := np.parent, left := some p }
        else if q = p then some { np with parent := some x, right := nx.left }
        else if nx.left = some q then (h.read q).map fun n => { n with parent := some p } else h.read q := by
  obtain ⟨h₁, h₂, hh₁, hx₁, hadopt, hsize₂, hx₂, hp₂, hr₂⟩ := Heap.handOver_reads (fun n => { n with left := n.parent }) hx hp hne hl
  obtain ⟨h₃, h₄, h₅, hh₃, hp₃, hh₄, hx₄, hh₅, hsize₅, hr₅⟩ := Heap.turn_reads (fun n => { n with right := nx.left }) hx₂ hp₂ hne
  refine ⟨h₅, ?_, hsize₅.trans hsize₂, fun q => ?_⟩
  · simp only [rotLeftPar, Heap.node_eq hx, Heap.update_eq _ hx, ok_bind, ← hh₁, Heap.node_eq hx₁, hxp, hadopt, Heap.node_eq hx₂,
      Heap.node_eq hp₂, Heap.update_eq _ hp₂, ← hh₃, Heap.node_eq hp₃, Heap.update_eq _ hp₃, ← hh₄, Heap.update_eq _ hx₄, ← hh₅]
  · rw [hr₅]
    by_cases hqx : q = x
    · rw [if_pos hqx, if_pos hqx, hxp]
    by_cases hqp : q = p
    · rw [if_neg hqx, if_pos hqp, if_neg hqx, if_pos hqp]
    · rw [if_neg hqx, if_neg hqp, if_neg hqx, if_neg hqp, hr₂ q hqx]

/-- A left rotation of a right child, between nodes that are all different. -/
theorem rotLeftPar_reads {h : Heap K T} {x p : Ptr} {nx np : TreeNode K T} (hx : h.read x = some nx) (hp : h.read p = some np)
    (hxp : nx.parent = some p) (hpl : np.left ≠ some x) (hpr : np.right = some x) (hne : x ≠ p)
    (hl : ∀ a, nx.left = some a → a ≠ x ∧ a ≠ p ∧ ∃ na, h.read a = some na)
    (hg : ∀ g, np.parent = some g → g ≠ x ∧ g ≠ p ∧ nx.left ≠ some g ∧
      ∃ ng, h.read g = some ng ∧ (ng.left = some p ∨ ng.right = some p)) :
    ∃ h', rotLeftPar h x = .ok h' ∧ RotatesLeft h h' x p nx np := by
  obtain ⟨h₁, heq, hsize₁, hr₁⟩ := rotLeftPar_eq hx hp hxp hne hl
  obtain ⟨h₂, habove, hsize₂, hr₂⟩ := Heap.relinkAbove_reads h₁ np.parent p x fun g hgp => by
    obtain ⟨hgx, hgp', hgl, ng, hng, hc⟩ := hg g hgp
    exact ⟨ng, by rw [hr₁, if_neg hgx, if_neg hgp', if_neg hgl, hng], hc⟩
  refine ⟨h₂, ?_, hsize₂.trans hsize₁, ?_, ?_, ?_, ?_, ?_⟩
  · simp [heq, TreeNode.childDir, hpl, hpr, habove]
  · rw [hr₂, if_neg (fun hgp => (hg x hgp).1 rfl), hr₁, if_pos rfl]
  · rw [hr₂, if_neg (fun hgp => (hg p hgp).2.1 rfl), hr₁, if_neg hne.symm, if_pos rfl]
  · intro a na ha hna
    obtain ⟨hax, hap, -⟩ := hl a ha
    rw [hr₂, if_neg (fun hgp => (hg a hgp).2.2.1 ha), hr₁, if_neg hax, if_neg hap, if_pos ha, hna]
    rfl
  · intro g ng hgp hng
    obtain ⟨hgx, hgp', hgl, -⟩ := hg g hgp
    rw [hr₂, if_pos hgp, hr₁, if_neg hgx, if_neg hgp', if_neg hgl, hng]
    rfl
  · intro q hqx hqp hql hqg
    rw [hr₂, if_neg hqg, hr₁, if_neg hqx, if_neg hqp, if_neg hql]

/-- A left rotation asserts that the node is the right child of its parent. -/
theorem rotLeftPar_asserts {h : Heap K T} {x p : Ptr} {nx np : TreeNode K T} (hx : h.read x = some nx) (hxp : nx.parent = some p)
    (hp : h.read p = some np) (hdir : np.childDir x ≠ .ok .right) (hne : x ≠ p)
    (hl : ∀ a, nx.left = some a → a ≠ x ∧ a ≠ p ∧ ∃ na, h.read a = some na) : rotLeftPar h x = .error assertion := by
  obtain ⟨h₁, heq, -⟩ := rotLeftPar_eq hx hp hxp hne hl
  rw [heq]
  rcases TreeNode.childDir_cases np x with hc | hc | hc
  · simp [hc]
  · exact absurd hc hdir
  · simp [hc]

/-- What a right rotation of `x` does to the cells: the mirror image of a left one, but for the node above, which is not written. -/
structure RotatesRight (h h' : Heap K T) (x p : Ptr) (nx np : TreeNode K T) : Prop where
  size : h'.size = h.size
  this : h'.read x = some { nx with parent := np.parent, right := some p }
  parent : h'.read p = some { np with parent := some x, left := nx.right }
  inner : ∀ a na, nx.right = some a → h.read a = some na → h'.read a = some { na with parent := some p }
  rest : ∀ q, q ≠ x → q ≠ p → nx.right ≠ some q → h'.read q = h.read q

/-- A right rotation of a node with a parent, whose inner child is another node. -/
theorem rotRightPar_reads {h : Heap K T} {x p : Ptr} {nx np : TreeNode K T} (hx : h.read x = some nx) (hp : h.read p = some np)
    (hxp : nx.parent = some p) (hne : x ≠ p) (hl : ∀ a, nx.right = some a → a ≠ x ∧ a ≠ p ∧ ∃ na, h.read a = some na) :
    ∃ h', rotRightPar h x = .ok h' ∧ RotatesRight h h' x p nx np := by
  obtain ⟨h₁, h₂, hh₁, hx₁, hadopt, hsize₂, hx₂, hp₂, hr₂⟩ := Heap.handOver_reads (fun n => { n with right := n.parent }) hx hp hne hl
  obtain ⟨h₃, h₄, h₅, hh₃, hp₃, hh₄, hx₄, hh₅, hsize₅, hr₅⟩ := Heap.turn_reads (fun n => { n with left := nx.right }) hx₂ hp₂ hne
  refine ⟨h₅, ?_, hsize₅.trans hsize₂, ?_, ?_, ?_, ?_⟩
  · simp only [rotRightPar, Heap.node_eq hx, Heap.update_eq _ hx, ok_bind, ← hh₁, Heap.node_eq hx₁, hxp, hadopt, Heap.node_eq hx₂,
      Heap.update_eq _ hp₂, ← hh₃, Heap.node_eq hp₃, Heap.update_eq _ hp₃, ← hh₄, Heap.update_eq _ hx₄, ← hh₅]
  · rw [hr₅, if_pos rfl, hxp]
  · rw [hr₅, if_neg hne.symm, if_pos rfl]
  · intro a na ha hna
    obtain ⟨hax, hap, -⟩ := hl a ha
    rw [hr₅, if_neg hax, if_neg hap, hr₂ a hax, if_pos ha, hna]
    rfl
  · intro q hqx hqp hql
    rw [hr₅, if_neg hqx, if_neg hqp, hr₂ q hqx, if_neg hql]

/-! ## Rotations of the focus -/

/-- The root of a shape that a heap holds can be read, below its parent. -/
theorem Holds.read_root {h : Heap K T} {parent : Option Ptr} {t : Shape K T} (ht : Holds h parent t) {a : Ptr}
    (ha : root t = some a) : ∃ n, h.read a = some n ∧ n.parent = parent := by
  cases t with
  | nil => cases ha
  | node b l r =>
    cases ha
    exact ⟨_, ht.1, rfl⟩

/-- The node above a path's subtree can be read, and the subtree is one of its children. -/
theorem HoldsPath.read_top {h : Heap K T} {child : Option Ptr} {path : Path K T} (hp : HoldsPath h child path) {g : Ptr}
    (hg : top path = some g) : ∃ n, h.read g = some n ∧ (n.left = child ∨ n.right = child) := by
  cases path with
  | nil => cases hg
  | cons f path =>
    cases f with
    | left a r =>
      cases hg
      exact ⟨_, hp.1, Or.inl rfl⟩
    | right l a =>
      cases hg
      exact ⟨_, hp.1, Or.inr rfl⟩

theorem mem_ptrs_of_top {path : Path K T} {g : Ptr} (h : top path = some g) : g ∈ ptrs (before path ++ after path) := by
  cases path with
  | nil => cases h
  | cons f path =>
    cases h
    cases f <;> simp [before, after, Frame.label]

/-- The addresses around a rotation of `x` and the node `p` above it are apart: those of the inner subtree, of the other two subtrees and
of what is above. -/
structure Turning (x p : Ptr) (is os gs : List Ptr) : Prop where
  ne : x ≠ p
  inner : ∀ q ∈ is, q ≠ x ∧ q ≠ p
  others : ∀ q ∈ os, q ≠ x ∧ q ≠ p ∧ q ∉ is ∧ q ∉ gs
  above : ∀ q ∈ gs, q ≠ x ∧ q ≠ p ∧ q ∉ is
  innerNodup : is.Nodup
  aboveNodup : gs.Nodup

theorem turning_of_nodup {x p : Ptr} {is os gs : List Ptr} (hd : (x :: p :: (is ++ (os ++ gs))).Nodup) : Turning x p is os gs := by
  rw [List.nodup_cons, List.nodup_cons, List.nodup_append, List.nodup_append] at hd
  obtain ⟨hx, hp, hinner, ⟨-, habove, hoa⟩, hdis⟩ := hd
  have hne : ∀ q ∈ is ++ (os ++ gs), q ≠ x ∧ q ≠ p := by
    intro q hq
    constructor
    · rintro rfl
      exact hx (List.mem_cons_of_mem _ hq)
    · rintro rfl
      exact hp hq
  refine ⟨?_, fun q hq => ?_, fun q hq => ?_, fun q hq => ?_, hinner, habove⟩
  · rintro rfl
    exact hx (List.mem_cons_self)
  · exact hne q (List.mem_append_left _ hq)
  · obtain ⟨hqx, hqp⟩ := hne q (List.mem_append_right _ (List.mem_append_left _ hq))
    exact ⟨hqx, hqp, fun hi => hdis q hi q (List.mem_append_left _ hq) rfl, fun ha => hoa q hq q ha rfl⟩
  · obtain ⟨hqx, hqp⟩ := hne q (List.mem_append_right _ (List.mem_append_right _ hq))
    exact ⟨hqx, hqp, fun hi => hdis q hi q (List.mem_append_right _ hq) rfl⟩

/-- A rotation of the root of the focus, with either of its subtrees as the inner one. -/
theorem Focus.turning {h : Heap K T} {f : Frame (Label K T)} {path : Path K T} {x : Label K T} {l r inner outer : Shape K T}
    (hf : Focus h (f :: path) (.node x l r)) (hio : inner = l ∧ outer = r ∨ inner = r ∧ outer = l) :
    Turning x.ptr f.label.ptr (ptrs inner.inorder) (ptrs f.sibling.inorder ++ ptrs outer.inorder) (ptrs (before path ++ after path)) := by
  refine turning_of_nodup ((List.Perm.nodup_iff ?_).mp hf.nodup)
  rw [List.perm_iff_count]
  intro q
  have hpath := (ptrs_path_perm f path).count_eq q
  simp only [List.count_append, List.count_cons, inorder_node, ptrs_append, ptrs_cons] at hpath ⊢
  rcases hio with ⟨rfl, rfl⟩ | ⟨rfl, rfl⟩ <;> omega

/-- A left rotation of the right child of a node: what it does to the cells, and that it turns the two nodes. -/
theorem Focus.rotatesLeft {h : Heap K T} {path : Path K T} {x p : Label K T} {ps l r : Shape K T}
    (hf : Focus h (.right ps p :: path) (.node x l r)) :
    ∃ h', RbTree.rotLeftPar h x.ptr = .ok h' ∧
      RotatesLeft h h' x.ptr p.ptr (x.cell (some p.ptr) (root l) (root r)) (p.cell (top path) (root ps) (some x.ptr)) ∧
      Focus h' path (.node x (.node p ps l) r) := by
  have ht : Turning x.ptr p.ptr (ptrs l.inorder) (ptrs ps.inorder ++ ptrs r.inorder) (ptrs (before path ++ after path)) :=
    hf.turning (Or.inl ⟨rfl, rfl⟩)
  obtain ⟨⟨hp, hps, habove⟩, ⟨hx, hl, hr⟩, hdist⟩ := hf
  obtain ⟨h', hrot, hturn⟩ := rotLeftPar_reads hx hp rfl
    (fun hroot => (ht.others x.ptr (List.mem_append_left _ (mem_ptrs_of_root hroot))).1 rfl) rfl ht.ne
    (fun a ha => by
      obtain ⟨hax, hap⟩ := ht.inner a (mem_ptrs_of_root ha)
      obtain ⟨na, hna, -⟩ := hl.read_root ha
      exact ⟨hax, hap, na, hna⟩)
    (fun g hg => by
      obtain ⟨hgx, hgp, hgl⟩ := ht.above g (mem_ptrs_of_top hg)
      obtain ⟨ng, hng, hc⟩ := habove.read_top hg
      exact ⟨hgx, hgp, fun ha => hgl (mem_ptrs_of_root ha), ng, hng, hc⟩)
  -- the addresses of the other two subtrees are none of those written
  have hothers : ∀ q ∈ ptrs ps.inorder ++ ptrs r.inorder, h'.read q = h.read q := by
    intro q hq
    obtain ⟨hqx, hqp, hql, hqa⟩ := ht.others q hq
    exact hturn.rest q hqx hqp (fun ha => hql (mem_ptrs_of_root ha)) fun hg => hqa (mem_ptrs_of_top hg)
  refine ⟨h', hrot, hturn, ?_, ⟨hturn.this, ⟨hturn.parent, ?_, ?_⟩, ?_⟩, ?_⟩
  · have hd : (p.ptr :: ptrs (before path ++ after path)).Nodup := List.nodup_cons.mpr ⟨fun hm => (ht.above _ hm).2.1 rfl, ht.aboveNodup⟩
    refine habove.relink (fun g n hg hn => hturn.above g n hg hn) (fun q hq hqt => ?_) hd
    obtain ⟨hqx, hqp, hql⟩ := ht.above q hq
    exact hturn.rest q hqx hqp (fun ha => hql (mem_ptrs_of_root ha)) hqt
  · exact hps.congr fun q hq => hothers q (List.mem_append_left _ hq)
  · refine hl.reparent (fun a n ha hn => hturn.inner a n ha hn) (fun q hq hqr => ?_) ht.innerNodup
    obtain ⟨hqx, hqp⟩ := ht.inner q hq
    exact hturn.rest q hqx hqp hqr fun hg => (ht.above q (mem_ptrs_of_top hg)).2.2 hq
  · exact hr.congr fun q hq => hothers q (List.mem_append_right _ hq)
  · rw [plug_cons] at hdist
    have : ptrs (BinaryTree.node x (.node p ps l) r).inorder = ptrs ((Frame.right ps p).fill (.node x l r)).inorder := by
      simp [Frame.fill]
    rwa [ptrs_plug_congr this]

/-- The node above is relinked, so a left rotation works anywhere in the tree. -/
theorem Focus.rotLeftPar {h : Heap K T} {path : Path K T} {x p : Label K T} {ps l r : Shape K T}
    (hf : Focus h (.right ps p :: path) (.node x l r)) :
    ∃ h', RbTree.rotLeftPar h x.ptr = .ok h' ∧ h'.size = h.size ∧ Focus h' path (.node x (.node p ps l) r) := by
  obtain ⟨h', hrot, hturn, hf'⟩ := hf.rotatesLeft
  exact ⟨h', hrot, hturn.size, hf'⟩

/-- A right rotation of the left child of a node turns the two, but the node above keeps its former child. -/
theorem Focus.rotRightPar {h : Heap K T} {path : Path K T} {x p : Label K T} {ps l r : Shape K T}
    (hf : Focus h (.left p ps :: path) (.node x l r)) :
    ∃ h', RbTree.rotRightPar h x.ptr = .ok h' ∧ h'.size = h.size ∧ Holds h' (top path) (.node x l (.node p r ps)) ∧
      HoldsPath h' (some p.ptr) path := by
  have ht : Turning x.ptr p.ptr (ptrs r.inorder) (ptrs ps.inorder ++ ptrs l.inorder) (ptrs (before path ++ after path)) :=
    hf.turning (Or.inr ⟨rfl, rfl⟩)
  obtain ⟨⟨hp, hps, habove⟩, ⟨hx, hl, hr⟩, -⟩ := hf
  obtain ⟨h', hrot, hsize, hx', hp', hinner, hrest⟩ := rotRightPar_reads hx hp rfl ht.ne
    (fun a ha => by
      obtain ⟨hax, hap⟩ := ht.inner a (mem_ptrs_of_root ha)
      obtain ⟨na, hna, -⟩ := hr.read_root ha
      exact ⟨hax, hap, na, hna⟩)
  have hothers : ∀ q ∈ ptrs ps.inorder ++ ptrs l.inorder, h'.read q = h.read q := by
    intro q hq
    obtain ⟨hqx, hqp, hqr, -⟩ := ht.others q hq
    exact hrest q hqx hqp fun ha => hqr (mem_ptrs_of_root ha)
  refine ⟨h', hrot, hsize, ⟨hx', ?_, ⟨hp', ?_, ?_⟩⟩, habove.congr fun q hq => ?_⟩
  · exact hl.congr fun q hq => hothers q (List.mem_append_right _ hq)
  · refine hr.reparent (fun a n ha hn => hinner a n ha hn) (fun q hq hqr => ?_) ht.innerNodup
    obtain ⟨hqx, hqp⟩ := ht.inner q hq
    exact hrest q hqx hqp hqr
  · exact hps.congr fun q hq => hothers q (List.mem_append_left _ hq)
  · obtain ⟨hqx, hqp, hqr⟩ := ht.above q hq
    exact hrest q hqx hqp fun ha => hqr (mem_ptrs_of_root ha)

/-- Where there is no node above, the whole tree is turned. -/
theorem Focus.rotRightPar_root {h : Heap K T} {x p : Label K T} {ps l r : Shape K T}
    (hf : Focus h [.left p ps] (.node x l r)) :
    ∃ h', RbTree.rotRightPar h x.ptr = .ok h' ∧ h'.size = h.size ∧ Focus h' [] (.node x l (.node p r ps)) := by
  obtain ⟨h', hrot, hsize, hbelow, -⟩ := hf.rotRightPar
  refine ⟨h', hrot, hsize, trivial, hbelow, ?_⟩
  have hdist := hf.distinct
  simpa [Frame.fill] using hdist

end MiriWeirdness.RbTree
