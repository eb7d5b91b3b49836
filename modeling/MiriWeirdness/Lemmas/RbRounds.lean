import MiriWeirdness.Lemmas.RbClimb
import MiriWeirdness.Lemmas.RbOrder

/-!
# What stands where the grandparent stood

A round that rotates should leave, where the grandparent stood, a subtree with as many black nodes on its paths as before and no red node
below a red one. `KeepsSubtree` says so of the heaps before and after the round. A right rotation below the root leaves the grandparent
itself there, red and without the node that was turned above it.
-/

namespace MiriWeirdness.RbTree

open BinaryTree

variable {K T : Type}

/-! ## A round that rotates -/

/-- The round at `curr` rotates: the parent is red, and the uncle is missing or black. `q` says how. -/
structure Rotates (h : Heap K T) (curr parent gp : Ptr) (q : Rotation) : Prop where
  node : ∃ n, h.read curr = some n ∧ n.parent = some parent ∧ n.color = q.curr
  above : ∃ n, h.read parent = some n ∧ n.parent = some gp ∧ n.color = .red ∧ n.childDir curr = .ok q.childDir
  grandparent : ∃ n, h.read gp = some n ∧ n.childDir parent = .ok q.parentDir ∧ n.parent.isNone = q.atRoot ∧
    ∃ uncle, n.getSibling parent = .ok uncle ∧ ∀ u m, uncle = some u → h.read u = some m → m.color = .black

/-- What stands in the second heap where `gp` stood in the first: the child on its side of the node above, or the node without a parent
that `gp` is below. -/
def Stands (h h' : Heap K T) (gp top : Ptr) : Prop :=
  ∃ g, h.read gp = some g ∧
    match g.parent with
    | some a => ∃ n n' dir, h.read a = some n ∧ h'.read a = some n' ∧ n.child dir = some gp ∧ n'.child dir = some top
    | none =>
      Relation.ReflTransGen (fun p q => ∃ n, h'.read p = some n ∧ n.parent = some q) gp top ∧ ∃ n, h'.read top = some n ∧ n.parent = none

/-- If every path down from `gp` had the same number of black nodes, then so has every path down from what stands in its place, the same
number as before, and no red node there has a red child. -/
def KeepsSubtree (h h' : Heap K T) (gp : Ptr) : Prop :=
  ∀ s n, readShape h.size h (some gp) = some s → (∀ c ∈ blackCounts s, c = n) →
    ∃ top s', Stands h h' gp top ∧ readShape h'.size h' (some top) = some s' ∧ (∀ c ∈ blackCounts s', c = n) ∧ NoRedRed s'

/-! ## Counts of black nodes -/

/-- The numbers of black nodes below a node whose subtrees have the same. -/
theorem counts_node {a : Label K T} {l r : Shape K T} {n : Nat} (hl : ∀ c ∈ blackCounts l, c = n) (hr : ∀ c ∈ blackCounts r, c = n) :
    ∀ c ∈ blackCounts (.node a l r), c = n + a.color.blacks := by
  intro c hc
  obtain ⟨d, hd, rfl⟩ := List.mem_map.mp hc
  rcases List.mem_append.mp hd with hd | hd
  · rw [hl d hd]
  · rw [hr d hd]

theorem counts_fill {f : Frame (Label K T)} {t : Shape K T} {n : Nat} (ht : ∀ c ∈ blackCounts t, c = n)
    (hs : ∀ c ∈ blackCounts f.sibling, c = n) : ∀ c ∈ blackCounts (f.fill t), c = n + f.label.color.blacks := by
  cases f with
  | left a r => exact counts_node ht hs
  | right l a => exact counts_node hs ht

/-- A path through the right subtree. -/
theorem Balanced.count_right {a : Label K T} {l r : Shape K T} {m : Nat} (hr : Balanced r m) :
    m + a.color.blacks ∈ RbTree.blackCounts (.node a l r) := by
  obtain ⟨c, hc⟩ := exists_mem_blackCounts r
  obtain rfl := hr.blackCounts c hc
  exact List.mem_map.mpr ⟨c, List.mem_append_right _ hc, rfl⟩

/-- A path through the left subtree. -/
theorem count_left {a : Label K T} {l r : Shape K T} {c : Nat} (hc : c ∈ blackCounts l) :
    c + a.color.blacks ∈ blackCounts (.node a l r) :=
  List.mem_map.mpr ⟨c, List.mem_append_left _ hc, rfl⟩

/-! ## Reading what stands there -/

section

variable {h h' : Heap K T} {path : Path K T} {s s' : Shape K T} {n : Nat}

theorem Focus.readShape_eq {p : Ptr} (hf : Focus h path s) (hroot : root s = some p) : readShape h.size h (some p) = some s := by
  rw [← hroot]
  refine hf.below.readShape_eq (Nat.le_trans ?_ hf.numNodes_le)
  rw [numNodes_plug]
  exact Nat.le_add_left _ _

/-- A round that turns the subtree and leaves it balanced, with the same black height and the grandparent below the new root. -/
theorem keepsSubtree_of_balanced {gp x : Ptr} (hf : Focus h path s) (hroot : root s = some gp)
    (hb : ∀ c ∈ blackCounts s, c = n) (hf' : Focus h' path s') (hroot' : root s' = some x) (hb' : Balanced s' n)
    (hbelow : ∃ g, h'.read gp = some g ∧ g.parent = some x) : KeepsSubtree h h' gp := by
  intro s₁ m hread hm
  obtain rfl : s = s₁ := Option.some.inj ((hf.readShape_eq hroot).symm.trans hread)
  obtain rfl := counts_unique hb hm
  obtain ⟨g, hg, hgp⟩ := hf.below.read_root hroot
  refine ⟨x, s', ⟨g, hg, ?_⟩, hf'.readShape_eq hroot', hb'.blackCounts, hb'.noRedRed⟩
  rw [hgp]
  cases path with
  | nil => exact ⟨Relation.ReflTransGen.single hbelow, hf'.below.read_root hroot'⟩
  | cons f path =>
    obtain ⟨k, hk, hkc⟩ := hf.above.read_child
    obtain ⟨k', hk', hkc'⟩ := hf'.above.read_child
    exact ⟨k, k', side f, hk, hk', hkc.trans hroot, hkc'.trans hroot'⟩

/-- What stands at the root, where the grandparent is right below it. -/
theorem Stands.eq_root {gp x y : Ptr} (hst : Stands h h' gp y) (hg : ∃ g, h.read gp = some g ∧ g.parent = none)
    (hbelow : ∃ g, h'.read gp = some g ∧ g.parent = some x) (hx : ∃ n, h'.read x = some n ∧ n.parent = none) : y = x := by
  obtain ⟨g, hg, hgp⟩ := hg
  obtain ⟨m, hm, hst⟩ := hst
  obtain rfl : g = m := Option.some.inj (hg.symm.trans hm)
  rw [hgp] at hst
  obtain ⟨hup, k, hk, hkp⟩ := hst
  obtain ⟨b, hb, hbp⟩ := hbelow
  obtain ⟨nx, hnx, hnxp⟩ := hx
  rcases hup.cases_head with rfl | ⟨c, ⟨b', hb', hbp'⟩, hup⟩
  · obtain rfl : b = k := Option.some.inj (hb.symm.trans hk)
    rw [hbp] at hkp
    cases hkp
  · obtain rfl : b = b' := Option.some.inj (hb.symm.trans hb')
    obtain rfl : x = c := Option.some.inj (hbp.symm.trans hbp')
    rcases hup.cases_head with rfl | ⟨d, ⟨m', hm', hmp'⟩, -⟩
    · rfl
    · obtain rfl : nx = m' := Option.some.inj (hnx.symm.trans hm')
      rw [hnxp] at hmp'
      cases hmp'

/-! ## Right rotations below the root -/

/-- A node that a right rotation has turned down: it is below `parent`, and the node above still has it as its child. -/
structure LeftBehind (h : Heap K T) (path : Path K T) (parent : Ptr) (a : Label K T) (l r : Shape K T) : Prop where
  above : HoldsPath h (some a.ptr) path
  below : Holds h (some parent) (.node a l r)
  distinct : (ptrs (BinaryTree.node a l r).inorder ++ ptrs (before path ++ after path)).Nodup

/-- A change of colour. -/
theorem Heap.setColor_reads {p : Ptr} {m : TreeNode K T} (hp : h.read p = some m) (c : Color) :
    ∃ h', h.setColor p c = .ok h' ∧ h'.size = h.size ∧
      ∀ q, h'.read q = if q = p then (h.read q).map fun n => { n with color := c } else h.read q :=
  ⟨_, Heap.update_eq _ hp, Arena.size_modify _ _ _, fun _ => Arena.read_modify _ _ _ _⟩

variable {a : Label K T} {l r : Shape K T} {parent : Ptr}

/-- Another node gets a colour. -/
theorem LeftBehind.setOther {p : Ptr} {m : TreeNode K T} (hb : LeftBehind h path parent a l r) (hp : h.read p = some m)
    (hout : p ∉ ptrs (BinaryTree.node a l r).inorder ++ ptrs (before path ++ after path)) (c : Color) :
    ∃ h', h.setColor p c = .ok h' ∧ h'.size = h.size ∧ LeftBehind h' path parent a l r ∧
      ∀ q k, h.read q = some k → ∃ k', h'.read q = some k' ∧ k'.parent = k.parent := by
  obtain ⟨h', heq, hsize, hread⟩ := Heap.setColor_reads hp c
  rw [List.mem_append, not_or] at hout
  refine ⟨h', heq, hsize, ⟨hb.above.congr fun q hq => ?_, hb.below.congr fun q hq => ?_, hb.distinct⟩, fun q k hk => ?_⟩
  · rw [hread, if_neg]
    rintro rfl
    exact hout.2 hq
  · rw [hread, if_neg]
    rintro rfl
    exact hout.1 hq
  · rw [hread, hk]
    split <;> exact ⟨_, rfl, rfl⟩

/-- The node itself gets a colour. -/
theorem LeftBehind.setSelf (hb : LeftBehind h path parent a l r) (c : Color) :
    ∃ h', h.setColor a.ptr c = .ok h' ∧ h'.size = h.size ∧ LeftBehind h' path parent { a with color := c } l r ∧
      ∀ q k, h.read q = some k → ∃ k', h'.read q = some k' ∧ k'.parent = k.parent := by
  obtain ⟨hcell, hl, hr⟩ := hb.below
  obtain ⟨h', heq, hsize, hread⟩ := Heap.setColor_reads hcell c
  have hd := hb.distinct
  rw [inorder_node, ptrs_append, ptrs_cons, List.append_assoc, List.cons_append, List.nodup_middle, List.nodup_cons, List.mem_append,
    List.mem_append, not_or, not_or] at hd
  obtain ⟨⟨hal, har, hap⟩, -⟩ := hd
  have hsame : ∀ q, q ≠ a.ptr → h'.read q = h.read q := fun q hq => by rw [hread, if_neg hq]
  have hdist : (ptrs (BinaryTree.node { a with color := c } l r).inorder ++ ptrs (before path ++ after path)).Nodup := by
    have hd := hb.distinct
    simp only [inorder_node, ptrs_append, ptrs_cons] at hd ⊢
    exact hd
  refine ⟨h', heq, hsize, ⟨hb.above.congr fun q hq => hsame q ?_, ⟨?_, hl.congr fun q hq => hsame q ?_, hr.congr fun q hq => hsame q ?_⟩,
    hdist⟩, fun q k hk => ?_⟩
  · rintro rfl
    exact hap hq
  · rw [hread, if_pos rfl, hcell]
    rfl
  · rintro rfl
    exact hal hq
  · rintro rfl
    exact har hq
  · rw [hread, hk]
    split <;> exact ⟨_, rfl, rfl⟩

/-- What stands in the place of a grandparent that was left behind is the grandparent, red now and with one black node less. -/
theorem LeftBehind.not_keepsSubtree {f : Frame (Label K T)} {gp : Ptr} (hf : Focus h (f :: path) s) (hroot : root s = some gp)
    (hcounts : ∀ c ∈ blackCounts s, c = n + 1) (hb : LeftBehind h' (f :: path) parent a l r) (ha : a.ptr = gp) (hred : a.color = .red)
    (hr : Balanced r n) : ¬KeepsSubtree h h' gp := by
  intro hkeeps
  obtain ⟨x, s', ⟨g, hg, hst⟩, hread, hcounts', -⟩ := hkeeps s (n + 1) (hf.readShape_eq hroot) hcounts
  obtain ⟨g', hg', hgp⟩ := hf.below.read_root hroot
  obtain rfl : g = g' := Option.some.inj (hg.symm.trans hg')
  rw [hgp] at hst
  obtain ⟨k, k', dir, hk, hk', hkc, hkc'⟩ := hst
  -- the cell of the node above is the one there was
  have hsame : h'.read f.label.ptr = h.read f.label.ptr := by
    have habove := hf.above
    have habove' := hb.above
    rw [hroot] at habove
    rw [ha] at habove'
    cases f with
    | left b t => exact habove'.1.trans habove.1.symm
    | right t b => exact habove'.1.trans habove.1.symm
  obtain rfl : k = k' := Option.some.inj (hk.symm.trans (hsame.symm.trans hk'))
  obtain rfl : gp = x := Option.some.inj (hkc.symm.trans hkc')
  have hnum : (BinaryTree.node a l r).numNodes ≤ h'.size := by
    have hlt := hb.below.lt_size
    have hsub : ptrs (BinaryTree.node a l r).inorder ⊆ List.range h'.size := fun p hp => List.mem_range.mpr (hlt p hp)
    have hle := (List.subperm_of_subset (List.nodup_append.mp hb.distinct).1 hsub).length_le
    rwa [ptrs, List.length_map, inorder_length, List.length_range] at hle
  have hshape : readShape h'.size h' (some gp) = some (.node a l r) := by
    rw [← ha]
    exact hb.below.readShape_eq hnum
  obtain rfl : BinaryTree.node a l r = s' := Option.some.inj (hshape.symm.trans hread)
  have hcount := hcounts' _ (hr.count_right (a := a) (l := l))
  simp [hred, Color.blacks] at hcount

end

section

variable {h : Heap K T} {x fa ga : Label K T} {fr fl gr l r : Shape K T} {f g : Frame (Label K T)} {path : Path K T} {t : Shape K T}

/-- The addresses of a focus, of the two frames above it and of the rest of the path are distinct. -/
theorem Focus.nodup_two (hf : Focus h (f :: g :: path) t) :
    (ptrs t.inorder ++ f.label.ptr :: (ptrs f.sibling.inorder ++ g.label.ptr :: (ptrs g.sibling.inorder ++
      ptrs (before path ++ after path)))).Nodup := by
  have hperm := (ptrs_path_perm f (g :: path)).trans (((ptrs_path_perm g path).append_left (ptrs f.sibling.inorder)).cons f.label.ptr)
  exact (hperm.append_left (ptrs t.inorder)).nodup_iff.mp hf.nodup

/-- A right rotation of the parent leaves the grandparent behind, wherever it is. -/
theorem rotateUncle_right_below (hf : Focus h (.left fa fr :: .left ga gr :: path) (.node x l r)) :
    ∃ h' res, rotateUncle h x.ptr fa.ptr ga.ptr = .ok (h', res) ∧ LeftBehind h' path fa.ptr { ga with color := .red } fr gr := by
  have heq := rotateUncle_eq hf rfl
  have hd := (List.nodup_append.mp hf.nodup_two).2.1
  simp only [Frame.label, Frame.sibling, List.nodup_cons] at hd heq
  obtain ⟨hfa, hd⟩ := hd
  obtain ⟨h₁, hrot, -, ⟨hcell, hx, hga⟩, habove⟩ := (focus_cons_iff.mp hf).rotRightPar
  have hb₁ : LeftBehind h₁ path fa.ptr ga fr gr := by
    refine ⟨habove, hga, ?_⟩
    simpa only [inorder_node, ptrs_append, ptrs_cons, List.append_assoc, List.cons_append] using hd
  obtain ⟨h₂, hset₂, -, hb₂, hpar₂⟩ := hb₁.setSelf .red
  obtain ⟨kf, hkf, -⟩ := hpar₂ _ _ hcell
  have hout : fa.ptr ∉ ptrs (BinaryTree.node { ga with color := Color.red } fr gr).inorder ++ ptrs (before path ++ after path) := by
    simpa only [inorder_node, ptrs_append, ptrs_cons, List.append_assoc, List.cons_append] using hfa
  obtain ⟨h₃, hset₃, -, hb₃, hpar₃⟩ := hb₂.setOther hkf hout .black
  -- `curr` still has its parent
  obtain ⟨k₂, hk₂, hkp₂⟩ := hpar₂ _ _ hx.1
  obtain ⟨k₃, hk₃, hkp₃⟩ := hpar₃ _ _ hk₂
  have hnext : k₃.parent = some fa.ptr := hkp₃.trans hkp₂
  refine ⟨h₃, .next fa.ptr, ?_, hb₃⟩
  rw [heq]
  simp [mapRotations, side, Direction.rev, rotateAndRecolor, rotate, hrot, hset₂, hset₃, checkNext, Heap.node_eq hk₃, hnext]

/-- So does the second of two rotations. -/
theorem rotateUncle_twice_below (hf : Focus h (.right fl fa :: .left ga gr :: path) (.node x l r)) :
    ∃ h' res, rotateUncle h x.ptr fa.ptr ga.ptr = .ok (h', res) ∧ LeftBehind h' path x.ptr { ga with color := .red } r gr := by
  have heq := rotateUncle_eq hf rfl
  have hd := hf.nodup_two
  simp only [Frame.label, Frame.sibling, inorder_node, ptrs_append, ptrs_cons] at hd heq
  obtain ⟨h₁, hrot₁, -, hf₁⟩ := hf.rotLeftPar
  obtain ⟨h₂, hrot₂, -, ⟨hcell, hfa, hga⟩, habove⟩ := hf₁.rotRightPar
  -- the nodes that stay below the grandparent, and those above it, are not turned
  have ht : Turning x.ptr fa.ptr (ptrs r.inorder) (ptrs fl.inorder ++ ptrs l.inorder)
      (ptrs (before (.left ga gr :: path) ++ after (.left ga gr :: path))) := hf.turning (Or.inr ⟨rfl, rfl⟩)
  have hother : ∀ q ∈ ptrs (BinaryTree.node ga r gr).inorder ++ ptrs (before path ++ after path), q ≠ x.ptr ∧ q ≠ fa.ptr := by
    intro q hq
    have hup : q = ga.ptr ∨ q ∈ ptrs gr.inorder ∨ q ∈ ptrs (before path ++ after path) → q ≠ x.ptr ∧ q ≠ fa.ptr := fun hm => by
      obtain ⟨hqx, hqf, -⟩ := ht.above q (mem_ptrs_path.mpr hm)
      exact ⟨hqx, hqf⟩
    rw [inorder_node, ptrs_append, ptrs_cons, List.append_assoc, List.mem_append, List.cons_append, List.mem_cons, List.mem_append] at hq
    rcases hq with hq | hq
    · exact ht.inner q hq
    · exact hup hq
  have hb₂ : LeftBehind h₂ path x.ptr ga r gr := by
    refine ⟨habove, hga, ?_⟩
    have hsub : (ptrs r.inorder ++ ga.ptr :: (ptrs gr.inorder ++ (ptrs (before path) ++ ptrs (after path)))).Nodup := by
      refine hd.sublist (List.Sublist.append ?_ ?_)
      · exact (List.sublist_cons_self _ _).trans (List.sublist_append_right _ _)
      · exact (List.sublist_append_right _ _).trans (List.sublist_cons_self _ _)
    simpa only [inorder_node, ptrs_append, ptrs_cons, List.append_assoc, List.cons_append] using hsub
  obtain ⟨h₃, hset₃, -, hb₃, hpar₃⟩ := hb₂.setOther hcell (fun hm => (hother _ hm).1 rfl) .black
  obtain ⟨kf, hkf, -⟩ := hpar₃ _ _ hfa.1
  obtain ⟨h₄, hset₄, -, hb₄, hpar₄⟩ := hb₃.setOther hkf (fun hm => (hother _ hm).2 rfl) .red
  obtain ⟨h₅, hset₅, -, hb₅, hpar₅⟩ := hb₄.setSelf .red
  obtain ⟨k₃, hk₃, -⟩ := hpar₃ _ _ hcell
  obtain ⟨k₄, hk₄, -⟩ := hpar₄ _ _ hk₃
  obtain ⟨k₅, hk₅, -⟩ := hpar₅ _ _ hk₄
  have hround : rotateUncle h x.ptr fa.ptr ga.ptr = checkNext h₅ x.ptr := by
    rw [heq]
    simp [mapRotations, side, Direction.rev, rotateAndRecolor, rotate, hrot₁, hrot₂, hset₃, hset₄, hset₅]
  cases hnext : k₅.parent with
  | none => exact ⟨h₅, .done x.ptr, by simp [hround, checkNext, Heap.node_eq hk₅, hnext], hb₅⟩
  | some c => exact ⟨h₅, .next c, by simp [hround, checkNext, Heap.node_eq hk₅, hnext], hb₅⟩

/-- Where a round rotates: below a red parent and a grandparent whose other child is not red. -/
theorem Rotates.frames {curr parent gp : Ptr} {q : Rotation} (hq : Rotates h curr parent gp q) (hf : Focus h path t)
    (hroot : root t = some curr) :
    ∃ f g above, path = f :: g :: above ∧ parent = f.label.ptr ∧ gp = g.label.ptr ∧ f.label.color = .red ∧
      rootColor g.sibling = .black ∧
      q = { parentDir := side g, childDir := side f, atRoot := above.isEmpty, curr := rootColor t } := by
  obtain ⟨c, hc, hcp, hcc⟩ := hq.node
  obtain ⟨p, hp, hpp, hpc, hpd⟩ := hq.above
  obtain ⟨n, hn, hnd, hnp, uncle, hu, hublack⟩ := hq.grandparent
  obtain ⟨a, l, r, rfl, rfl⟩ := exists_node_of_root hroot
  obtain rfl : a.cell (top path) (root l) (root r) = c := Option.some.inj (hf.read.symm.trans hc)
  cases path with
  | nil => cases hcp
  | cons f path =>
    obtain rfl : f.label.ptr = parent := Option.some.inj hcp
    cases path with
    | nil =>
      obtain ⟨m, hm, hmp, -⟩ := hf.above.frame
      obtain rfl : p = m := Option.some.inj (hp.symm.trans hm)
      rw [hpp] at hmp
      cases hmp
    | cons g above =>
      obtain ⟨m, hm, hmp, hmc, hdir⟩ := hf.frame
      rw [Heap.node_eq hp] at hm
      obtain rfl := Except.ok.inj hm
      obtain rfl : gp = g.label.ptr := Option.some.inj (hpp.symm.trans hmp)
      have hg := focus_cons_iff.mp hf
      obtain ⟨k, hk, hkp, -, hkdir⟩ := hg.frame
      rw [Heap.node_eq hn] at hk
      obtain rfl := Except.ok.inj hk
      obtain ⟨hkd, hks⟩ := hkdir f.label.ptr (root_fill f _)
      refine ⟨f, g, above, rfl, rfl, rfl, hmc.symm.trans hpc, ?_, ?_⟩
      · obtain rfl : uncle = root g.sibling := Except.ok.inj (hu.symm.trans hks)
        cases hsib : g.sibling with
        | nil => rfl
        | node b bl br =>
          have hread := hg.sibling
          rw [hsib] at hread
          exact hublack b.ptr _ (by rw [hsib]; rfl) hread.read
      · have hp' : side g = q.parentDir := Except.ok.inj (hkd.symm.trans hnd)
        have hc' : side f = q.childDir := Except.ok.inj ((hdir a.ptr rfl).1.symm.trans hpd)
        have hr' : above.isEmpty = q.atRoot := by
          rw [← hnp, hkp]
          cases above <;> rfl
        obtain ⟨pd, cd, ar, col⟩ := q
        cases hp'
        cases hc'
        cases hr'
        cases hcc
        rfl

/-- A round below such nodes rotates. -/
theorem Focus.rotates {curr : Ptr} (hf : Focus h (f :: g :: path) t) (hroot : root t = some curr) (hred : f.label.color = .red)
    (hu : rootColor g.sibling = .black) :
    Rotates h curr f.label.ptr g.label.ptr
      { parentDir := side g, childDir := side f, atRoot := path.isEmpty, curr := rootColor t } := by
  obtain ⟨a, l, r, rfl, rfl⟩ := exists_node_of_root hroot
  have hg := focus_cons_iff.mp hf
  obtain ⟨p, hp, hpp, hpc, -⟩ := hf.above.frame
  obtain ⟨k, hk, hkp, -⟩ := hg.above.frame
  obtain ⟨p', hp', -, -, hdir⟩ := hf.frame
  rw [Heap.node_eq hp] at hp'
  obtain rfl := Except.ok.inj hp'
  obtain ⟨k', hk', -, -, hkdir⟩ := hg.frame
  rw [Heap.node_eq hk] at hk'
  obtain rfl := Except.ok.inj hk'
  obtain ⟨hkd, hks⟩ := hkdir f.label.ptr (root_fill f _)
  refine ⟨⟨_, hf.read, rfl, rfl⟩, ⟨p, hp, hpp, hpc.trans hred, (hdir a.ptr rfl).1⟩, ⟨k, hk, hkd, ?_, _, hks, ?_⟩⟩
  · rw [hkp]
    cases path <;> rfl
  · intro u m hroot' hm
    obtain ⟨b, bl, br, hsib, rfl⟩ := exists_node_of_root hroot'
    have hread := hg.sibling
    rw [hsib] at hread hu
    obtain rfl : m = _ := Option.some.inj (hm.symm.trans hread.read)
    exact hu

end

/-! ## The rounds of a fix-up -/

/-- The loop at `curr`, in a tree that is red-black but for a red `curr` below a red parent. -/
structure Fixing (h : Heap K T) (curr : Ptr) (path : Path K T) (t : Shape K T) (n : Nat) : Prop where
  focus : Focus h path t
  root : RbTree.root t = some curr
  above : PathBalanced n path
  below : Balanced t n
  blackTop : BlackTop path

section

variable {h h' : Heap K T} {curr parent gp : Ptr} {path : Path K T} {t : Shape K T} {n : Nat} {q : Rotation} {res : Round}

/-- Two rotations at the root, of a black node: a path through its former left subtree has one black node less than the others. -/
theorem not_keepsSubtree_twice {fa ga x : Label K T} {fl gr l r : Shape K T} (hf : Focus h [] (.node ga (.node fa fl (.node x l r)) gr))
    (hcounts : ∀ c ∈ blackCounts (.node ga (.node fa fl (.node x l r)) gr), c = n + 1) (ht : Balanced (.node x l r) n)
    (hblack : x.color = .black) (hf' : Focus h' [] (turnedTwice ga fa gr fl (.node x l r))) : ¬KeepsSubtree h h' ga.ptr := by
  intro hkeeps
  obtain ⟨y, s', hst, hread, hcounts', -⟩ := hkeeps _ (n + 1) (hf.readShape_eq rfl) hcounts
  obtain rfl : y = x.ptr := hst.eq_root ⟨_, hf.read, rfl⟩ ⟨_, hf'.below.2.2.1, rfl⟩ ⟨_, hf'.below.1, rfl⟩
  obtain rfl := Option.some.inj ((hf'.readShape_eq rfl).symm.trans hread)
  obtain ⟨-, m, hm, hl, -⟩ := ht
  have hcount := hcounts' _ (count_left (hl.count_right (a := { fa with color := .red }) (l := fl)))
  simp only [hblack, Color.blacks] at hm hcount
  omega

/-- A round that rotates keeps the subtree of the grandparent if and only if its rotation keeps the colours. -/
theorem Fixing.keepsSubtree_iff (hx : Fixing h curr path t n) (hq : Rotates h curr parent gp q)
    (hround : recolorRound h curr parent = .ok (h', res)) : KeepsSubtree h h' gp ↔ q.keepsColors = true := by
  obtain ⟨f, g, above, rfl, rfl, rfl, hred, hu, rfl⟩ := hq.frames hx.focus hx.root
  obtain ⟨hs, hsib, hblack, hgs, -⟩ := hx.above.round hred
  rw [recolorRound_rotate hx.focus hred hu] at hround
  obtain ⟨x, l, r, rfl, rfl⟩ := exists_node_of_root hx.root
  have hgp := focus_cons_iff.mp (focus_cons_iff.mp hx.focus)
  have hcounts : ∀ c ∈ blackCounts (g.fill (f.fill (.node x l r))), c = n + 1 := by
    have hparent := counts_fill hx.below.blackCounts hs.blackCounts
    rw [hred] at hparent
    have hgrand := counts_fill hparent hgs.blackCounts
    rwa [hblack] at hgrand
  cases g with
  | right gl ga =>
    cases f with
    | right fl fa =>
      obtain ⟨h₁, -, hrot, hf₁⟩ := rotateUncle_left hx.focus
      obtain ⟨rfl, -⟩ := Prod.mk.inj (Except.ok.inj (hrot.symm.trans hround))
      refine iff_of_true ?_ (by simp [Rotation.keepsColors, Rotation.relinks, side])
      exact keepsSubtree_of_balanced hgp rfl hcounts hf₁ rfl (turnedLeft_balanced hgs hs hx.below hu hsib) ⟨_, hf₁.below.2.1.1, rfl⟩
    | left fa fr =>
      -- the second rotation fails its assertion
      exact absurd ((rotateUncle_asserts hx.focus).symm.trans hround) (by rintro ⟨⟩)
  | left ga gr =>
    cases f with
    | left fa fr =>
      cases above with
      | nil =>
        obtain ⟨h₁, -, hrot, hf₁⟩ := rotateUncle_right hx.focus
        obtain ⟨rfl, -⟩ := Prod.mk.inj (Except.ok.inj (hrot.symm.trans hround))
        refine iff_of_true ?_ (by simp [Rotation.keepsColors, Rotation.relinks, side])
        exact keepsSubtree_of_balanced hgp rfl hcounts hf₁ rfl (turnedRight_balanced hgs hs hx.below hu hsib)
          ⟨_, hf₁.below.2.2.1, rfl⟩
      | cons k above =>
        obtain ⟨h₁, res₁, hrot, hb₁⟩ := rotateUncle_right_below hx.focus
        obtain ⟨rfl, -⟩ := Prod.mk.inj (Except.ok.inj (hrot.symm.trans hround))
        exact iff_of_false (hb₁.not_keepsSubtree hgp rfl hcounts rfl rfl hgs) (by simp [Rotation.keepsColors, Rotation.relinks, side])
    | right fl fa =>
      cases above with
      | nil =>
        obtain ⟨h₁, -, hrot, hf₁⟩ := rotateUncle_twice hx.focus
        obtain ⟨rfl, -⟩ := Prod.mk.inj (Except.ok.inj (hrot.symm.trans hround))
        cases hcol : x.color with
        | red =>
          refine iff_of_true ?_ (by simp [Rotation.keepsColors, Rotation.relinks, side, hcol])
          exact keepsSubtree_of_balanced hgp rfl hcounts hf₁ rfl (turnedTwice_balanced hgs hs hx.below hu hsib hcol)
            ⟨_, hf₁.below.2.2.1, rfl⟩
        | black =>
          exact iff_of_false (not_keepsSubtree_twice hgp hcounts hx.below hcol hf₁)
            (by simp [Rotation.keepsColors, Rotation.relinks, side, hcol])
      | cons k above =>
        obtain ⟨h₁, res₁, hrot, hb₁⟩ := rotateUncle_twice_below hx.focus
        obtain ⟨rfl, -⟩ := Prod.mk.inj (Except.ok.inj (hrot.symm.trans hround))
        exact iff_of_false (hb₁.not_keepsSubtree hgp rfl hcounts rfl rfl hgs) (by simp [Rotation.keepsColors, Rotation.relinks, side])

/-- A round of a red uncle that goes on keeps the tree so. -/
theorem Fixing.recolored {f g : Frame (Label K T)} {next : Ptr} (hx : Fixing h curr (f :: g :: path) t n) (hred : f.label.color = .red)
    (hu : rootColor g.sibling = .red) (hround : recolorRound h curr f.label.ptr = .ok (h', .next next)) :
    ∃ path t n, Fixing h' next path t n := by
  obtain ⟨-, -, -, -, habove⟩ := hx.above.round hred
  obtain ⟨h₁, -, hrec, hf₁⟩ := @recolorRound_red _ _ _ _ _ _ _ curr hx.focus hred hu
  rw [hrec] at hround
  cases path with
  | nil => cases hround
  | cons k above =>
    obtain ⟨rfl, hnext⟩ := Prod.mk.inj (Except.ok.inj hround)
    obtain rfl : g.label.ptr = next := by simpa using hnext
    exact ⟨_, _, _, hf₁, by cases g <;> rfl, habove, (recolored_balanced hx.above hx.below hred hu).1, hx.blackTop.tail.tail⟩

/-- So does a round that rotates and keeps the colours. -/
theorem Fixing.rotated {f g : Frame (Label K T)} {next : Ptr} (hx : Fixing h curr (f :: g :: path) t n) (hred : f.label.color = .red)
    (hu : rootColor g.sibling = .black) (hround : recolorRound h curr f.label.ptr = .ok (h', .next next))
    (hkeep : Rotation.keepsColors { parentDir := side g, childDir := side f, atRoot := path.isEmpty, curr := rootColor t } = true) :
    ∃ path t n, Fixing h' next path t n := by
  obtain ⟨hs, hsib, -, hgs, habove⟩ := hx.above.round hred
  rw [recolorRound_rotate hx.focus hred hu] at hround
  obtain ⟨x, l, r, rfl, rfl⟩ := exists_node_of_root hx.root
  cases g with
  | right gl ga =>
    cases f with
    | right fl fa =>
      obtain ⟨h₁, -, hrot, hf₁⟩ := rotateUncle_left hx.focus
      obtain ⟨rfl, hnext⟩ := Prod.mk.inj (Except.ok.inj (hrot.symm.trans hround))
      obtain rfl : fa.ptr = next := by simpa using hnext
      exact ⟨_, _, _, hf₁, rfl, habove, turnedLeft_balanced hgs hs hx.below hu hsib, hx.blackTop.tail.tail⟩
    | left fa fr => exact absurd ((rotateUncle_asserts hx.focus).symm.trans hround) (by rintro ⟨⟩)
  | left ga gr =>
    cases f with
    | left fa fr =>
      obtain rfl : path = [] := by simpa [Rotation.keepsColors, Rotation.relinks, side] using hkeep
      obtain ⟨h₁, -, hrot, hf₁⟩ := rotateUncle_right hx.focus
      obtain ⟨rfl, hnext⟩ := Prod.mk.inj (Except.ok.inj (hrot.symm.trans hround))
      obtain rfl : fa.ptr = next := by simpa using hnext
      exact ⟨_, _, _, hf₁, rfl, habove, turnedRight_balanced hgs hs hx.below hu hsib, hx.blackTop.tail.tail⟩
    | right fl fa =>
      obtain rfl : path = [] := And.left (by simpa [Rotation.keepsColors, Rotation.relinks, side] using hkeep)
      obtain ⟨h₁, -, hrot, -⟩ := rotateUncle_twice hx.focus
      exact absurd (hrot.symm.trans hround) (by rintro ⟨⟩)

/-- A round that goes on keeps the tree so, when its rotation, if it makes one, keeps the colours. -/
theorem Fixing.continues {next : Ptr} (hx : Fixing h curr path t n) (hs : Continues (h, curr) (h', next))
    (hgood : ∀ parent gp q, Rotates h curr parent gp q → q.keepsColors = true) : ∃ path t n, Fixing h' next path t n := by
  obtain ⟨k, parent, hk, hkp, hround⟩ := hs
  obtain ⟨m, hm, hmp⟩ := hx.focus.parent hx.root
  rw [Heap.node_eq hk] at hm
  obtain rfl := Except.ok.inj hm
  have htop : RbTree.top path = some parent := hmp.symm.trans hkp
  cases path with
  | nil => cases htop
  | cons f path =>
    obtain rfl : f.label.ptr = parent := Option.some.inj htop
    cases path with
    | nil =>
      rw [recolorRound_black hx.focus hx.blackTop] at hround
      cases hround
    | cons g above =>
      cases hred : f.label.color with
      | black =>
        rw [recolorRound_black hx.focus hred] at hround
        cases hround
      | red =>
        cases hu : rootColor g.sibling with
        | red => exact hx.recolored hred hu hround
        | black => exact hx.rotated hred hu hround (hgood _ _ _ (hx.focus.rotates hx.root hred hu))

end

end MiriWeirdness.RbTree
