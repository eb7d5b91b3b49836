import MiriWeirdness.Lemmas.RbOrder

/-!
# Links and depths

The tree as a walker on its pointers meets it: `DepthAt` counts the nodes on the way down from the root, `WellLinked` says that the
parent pointers lead back up. Both are read off the shape that the pointers hold.
-/

namespace MiriWeirdness.RbTree

open BinaryTree

variable {K T : Type}

/-- The node is reached from the root by child pointers, as the `d`-th node on the way. -/
inductive DepthAt (t : RbTree K T) : Ptr → Nat → Prop where
  | root {p : Ptr} : t.val = some p → DepthAt t p 1
  | child {p c : Ptr} {d : Nat} {n : TreeNode K T} :
      DepthAt t p d → t.heap.read p = some n → n.left = some c ∨ n.right = some c → DepthAt t c (d + 1)

/-- The root has no parent, and the parent pointer of every child that is reached names its parent. -/
structure WellLinked (t : RbTree K T) : Prop where
  root : ∀ p, t.val = some p → ∃ n, t.heap.read p = some n ∧ n.parent = none
  child : ∀ p d n, DepthAt t p d → t.heap.read p = some n → ∀ c, n.left = some c ∨ n.right = some c →
    ∃ m, t.heap.read c = some m ∧ m.parent = some p

/-- A child of the focus is the root of one of its subtrees. -/
theorem Focus.child {h : Heap K T} {path : Path K T} {a : Label K T} {l r : Shape K T} {c : Ptr} {n : TreeNode K T}
    (hf : Focus h path (.node a l r)) (hn : h.read a.ptr = some n) (hc : n.left = some c ∨ n.right = some c) :
    ∃ f s, Focus h (f :: path) s ∧ root s = some c ∧ f.label = a ∧ f.fill s = .node a l r := by
  obtain rfl : a.cell (top path) (root l) (root r) = n := Option.some.inj (hf.read.symm.trans hn)
  rcases hc with hc | hc
  · exact ⟨.left a r, l, focus_cons_iff.mpr hf, hc, rfl, rfl⟩
  · exact ⟨.right l a, r, focus_cons_iff.mpr hf, hc, rfl, rfl⟩

/-- A node that is reached is the root of a subtree of the shape, as deep as its path is long. -/
theorem Represents.focus_of_depthAt {t : RbTree K T} {s : Shape K T} (hr : Represents t s) {p : Ptr} {d : Nat} (h : DepthAt t p d) :
    ∃ path a l r, Focus t.heap path (.node a l r) ∧ a.ptr = p ∧ plug path (.node a l r) = s ∧ path.length + 1 = d := by
  induction h with
  | root hval =>
    obtain ⟨a, l, r, rfl, rfl⟩ := exists_node_of_root (hr.val.symm.trans hval)
    exact ⟨[], a, l, r, hr.heap, rfl, rfl, rfl⟩
  | child _ hn hc ih =>
    obtain ⟨path, a, l, r, hf, rfl, hplug, hd⟩ := ih
    obtain ⟨f, s', hf', hroot, -, hfill⟩ := hf.child hn hc
    obtain ⟨b, l', r', rfl, rfl⟩ := exists_node_of_root hroot
    refine ⟨f :: path, b, l', r', hf', rfl, ?_, by simp [hd]⟩
    rw [plug_cons, hfill, hplug]

theorem Represents.wellLinked {t : RbTree K T} {s : Shape K T} (hr : Represents t s) : WellLinked t := by
  refine ⟨fun p hp => hr.heap.below.read_root (hr.val.symm.trans hp), fun p d n hd hn c hc => ?_⟩
  obtain ⟨path, a, l, r, hf, rfl, -, -⟩ := hr.focus_of_depthAt hd
  obtain ⟨f, s', hf', hroot, hlabel, -⟩ := hf.child hn hc
  obtain ⟨m, hm, hpar⟩ := hf'.below.read_root hroot
  exact ⟨m, hm, by rw [hpar, top_cons, hlabel]⟩

/-- No node is deeper than the shape is high. -/
theorem Represents.depth_le {t : RbTree K T} {s : Shape K T} (hr : Represents t s) {p : Ptr} {d : Nat} (h : DepthAt t p d) :
    d ≤ s.height := by
  obtain ⟨path, a, l, r, -, -, rfl, rfl⟩ := hr.focus_of_depthAt h
  refine Nat.le_trans ?_ (length_add_height_le path (.node a l r))
  simp only [height]
  omega

/-! ## Ascending keys -/

/-- Rotations below a path that goes right all the way are left rotations. -/
theorem rotations_of_right {path : Path K T} (curr : Color) (hp : ∀ f ∈ path, side f = .right) :
    ∀ q ∈ rotations curr path, q.parentDir = .right ∧ q.childDir = .right := by
  fun_induction rotations curr path with
  | case1 => simp
  | case2 _ f g path _ _ ih => exact ih fun k hk => hp k (List.mem_cons_of_mem _ (List.mem_cons_of_mem _ hk))
  | case3 _ f g path _ _ ih _ =>
    have hf : side f = .right := hp f (by simp)
    have hg : side g = .right := hp g (by simp)
    rw [if_pos (hg.trans hf.symm)]
    intro q hq
    rcases List.mem_cons.mp hq with rfl | hq
    · exact ⟨hg, hf⟩
    · exact ih (fun k hk => hp k (List.mem_cons_of_mem _ (List.mem_cons_of_mem _ hk))) q hq
  | case4 => simp

/-- The descent of a key above all others goes right all the way. -/
theorem descend_of_above [LinearOrder K] {key : K} {s : Shape K T} {path : Path K T} (hs : ∀ kv ∈ entries s, kv.1 < key)
    (hp : ∀ f ∈ path, side f = .right) : ∃ path', descend key s path = some path' ∧ ∀ f ∈ path', side f = .right := by
  induction s generalizing path with
  | nil => exact ⟨path, rfl, hp⟩
  | node a l r ihl ihr =>
    have ha : a.key < key := hs a.entry (by simp)
    have hc : compare a.key key = .lt := compare_lt_iff_lt.mpr ha
    obtain ⟨path', hpath, hp'⟩ := @ihr (.right l a :: path) (fun kv hkv => hs kv (by simp [hkv])) (List.forall_mem_cons.mpr ⟨rfl, hp⟩)
    exact ⟨path', by simp [descend, hc, hpath], hp'⟩

end MiriWeirdness.RbTree
