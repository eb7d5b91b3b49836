import Mathlib.Logic.Relation
import MiriWeirdness.Lemmas.RbInsert

/-!
# The nodes above `curr`

The loop of `recolor_2` climbs parent pointers that its own rotations write, and a right rotation below the root leaves a child pointer
that is no longer right. `Climbing` is what every round keeps, whatever the colours: the nodes above `curr`, with what hangs from them on
the other side, are linked as a path; the nearest of them may have any node below as its child; and no child pointer leads from the nodes
below back to them. A round that goes on does so from a node with a shorter path.
-/

namespace MiriWeirdness.RbTree

open BinaryTree

variable {K T : Type}

/-- `c` is a child of the node, on either side. -/
def TreeNode.HasChild (n : TreeNode K T) (c : Ptr) : Prop := n.left = some c ∨ n.right = some c

/-- The nodes below `curr` and around it after a step up to the node of a frame. -/
def up (below : Ptr → Prop) (f : Frame (Label K T)) (q : Ptr) : Prop := below q ∨ q = f.label.ptr ∨ q ∈ ptrs f.sibling.inorder

/-- A shape that a heap holds has the children of its nodes. -/
theorem Holds.children {h : Heap K T} {parent : Option Ptr} {t : Shape K T} (ht : Holds h parent t) {q : Ptr}
    (hq : q ∈ ptrs t.inorder) : ∃ n, h.read q = some n ∧ ∀ c, n.HasChild c → c ∈ ptrs t.inorder := by
  induction t generalizing parent with
  | nil => cases hq
  | node a l r ihl ihr =>
    obtain ⟨ha, hl, hr⟩ := ht
    simp only [inorder_node, ptrs_append, ptrs_cons, List.mem_append, List.mem_cons] at hq ⊢
    rcases hq with hq | rfl | hq
    · obtain ⟨n, hn, hc⟩ := ihl hl hq
      exact ⟨n, hn, fun c hnc => Or.inl (hc c hnc)⟩
    · refine ⟨_, ha, ?_⟩
      rintro c (hc | hc)
      · exact Or.inl (mem_ptrs_of_root hc)
      · exact Or.inr (Or.inr (mem_ptrs_of_root hc))
    · obtain ⟨n, hn, hc⟩ := ihr hr hq
      exact ⟨n, hn, fun c hnc => Or.inr (Or.inr (hc c hnc))⟩

/-- The children of the node of the nearest frame. -/
theorem HoldsPath.children {h : Heap K T} {child : Option Ptr} {f : Frame (Label K T)} {path : Path K T} {n : TreeNode K T}
    (hp : HoldsPath h child (f :: path)) (hn : h.read f.label.ptr = some n) {c : Ptr} (hc : n.HasChild c) :
    child = some c ∨ root f.sibling = some c := by
  cases f with
  | left a r =>
    obtain rfl : a.cell (top path) child (root r) = n := Option.some.inj (hp.1.symm.trans hn)
    exact hc
  | right l a =>
    obtain rfl : a.cell (top path) (root l) child = n := Option.some.inj (hp.1.symm.trans hn)
    exact hc.symm

/-- The rest of a path, and the sibling of its nearest frame. -/
theorem HoldsPath.tail {h : Heap K T} {child : Option Ptr} {f : Frame (Label K T)} {path : Path K T}
    (hp : HoldsPath h child (f :: path)) : HoldsPath h (some f.label.ptr) path ∧ Holds h (some f.label.ptr) f.sibling := by
  cases f with
  | left a r => exact ⟨hp.2.2, hp.2.1⟩
  | right l a => exact ⟨hp.2.2, hp.2.1⟩

/-! ## What every round keeps -/

/-- `curr` and the path above it, between rounds and between the rotations of a round. -/
structure Climbing (h : Heap K T) (below : Ptr → Prop) (curr : Ptr) (path : Path K T) : Prop where
  above : ∃ child, HoldsPath h child path ∧ ∀ c, child = some c → below c
  parent : ∃ n, h.read curr = some n ∧ n.parent = top path ∧ ¬n.HasChild curr
  curr : below curr
  closed : ∀ q, below q → ∃ n, h.read q = some n ∧ ∀ c, n.HasChild c → below c
  distinct : (ptrs (before path ++ after path)).Nodup
  apart : ∀ q, below q → q ∉ ptrs (before path ++ after path)

section

variable {h h' : Heap K T} {below : Ptr → Prop} {curr : Ptr} {f : Frame (Label K T)} {path : Path K T}

/-- One step up. -/
theorem Climbing.up (hc : Climbing h below curr (f :: path)) : Climbing h (RbTree.up below f) f.label.ptr path := by
  obtain ⟨child, habove, hchild⟩ := hc.above
  obtain ⟨hrest, hsib⟩ := habove.tail
  obtain ⟨n, hn, hnp, -⟩ := habove.frame
  have hd := (ptrs_path_perm f path).nodup_iff.mp hc.distinct
  rw [List.nodup_cons, List.mem_append, not_or, List.nodup_append] at hd
  obtain ⟨⟨hfs, hfp⟩, -, hdp, hsp⟩ := hd
  have hflabel : ¬below f.label.ptr := fun hb => hc.apart _ hb (mem_ptrs_path.mpr (Or.inl rfl))
  refine ⟨⟨_, hrest, ?_⟩, ⟨n, hn, hnp, fun hself => ?_⟩, Or.inr (Or.inl rfl), ?_, hdp, ?_⟩
  · rintro c ⟨⟩
    exact Or.inr (Or.inl rfl)
  · rcases habove.children hn hself with hf | hf
    · exact hflabel (hchild _ hf)
    · exact hfs (mem_ptrs_of_root hf)
  · rintro q (hq | rfl | hq)
    · obtain ⟨m, hm, hmc⟩ := hc.closed q hq
      exact ⟨m, hm, fun c hmq => Or.inl (hmc c hmq)⟩
    · refine ⟨n, hn, fun c hnc => ?_⟩
      rcases habove.children hn hnc with hf | hf
      · exact Or.inl (hchild c hf)
      · exact Or.inr (Or.inr (mem_ptrs_of_root hf))
    · obtain ⟨m, hm, hmc⟩ := hsib.children hq
      exact ⟨m, hm, fun c hmq => Or.inr (Or.inr (hmc c hmq))⟩
  · rintro q (hq | rfl | hq) hmem
    · exact hc.apart q hq (mem_ptrs_path.mpr (Or.inr (Or.inr hmem)))
    · exact hfp hmem
    · exact hsp q hq q hmem rfl

/-- A change of colour below the path. -/
theorem Climbing.setColor (hc : Climbing h below curr path) {q : Ptr} (hq : below q) (color : Color) :
    ∃ h', h.setColor q color = .ok h' ∧ Climbing h' below curr path ∧
      ∀ r n, h.read r = some n → ∃ n', h'.read r = some n' ∧ n'.parent = n.parent := by
  obtain ⟨m, hm, -⟩ := hc.closed q hq
  have hread : ∀ r n, h.read r = some n → ∃ n', (h.modify q fun n => { n with color := color }).read r = some n' ∧
      n'.parent = n.parent ∧ ∀ c, n'.HasChild c ↔ n.HasChild c := by
    intro r n hr
    rw [Arena.read_modify, hr]
    split
    · exact ⟨_, rfl, rfl, fun c => Iff.rfl⟩
    · exact ⟨_, rfl, rfl, fun c => Iff.rfl⟩
  obtain ⟨child, habove, hchild⟩ := hc.above
  obtain ⟨n, hn, hnp, hself⟩ := hc.parent
  obtain ⟨n', hn', hnp', hnc'⟩ := hread curr n hn
  refine ⟨_, Heap.update_eq _ hm, ⟨⟨child, habove.congr fun r hr => ?_, hchild⟩, ⟨n', hn', hnp'.trans hnp, ?_⟩, hc.curr, fun r hr => ?_,
    hc.distinct, hc.apart⟩, fun r k hk => ?_⟩
  · rw [Arena.read_modify, if_neg]
    rintro rfl
    exact hc.apart r hq hr
  · rw [hnc']
    exact hself
  · obtain ⟨k, hk, hkc⟩ := hc.closed r hr
    obtain ⟨k', hk', -, hkc'⟩ := hread r k hk
    exact ⟨k', hk', fun c hc' => hkc c ((hkc' c).mp hc')⟩
  · obtain ⟨k', hk', hkp, -⟩ := hread r k hk
    exact ⟨k', hk', hkp⟩

/-! ## Rotations -/

/-- A rotation of `curr` around its parent: `curr` takes the parent's place below the rest of the path, whether or not the node above
has it as its child. -/
theorem Climbing.rotated {nx np : TreeNode K T} (hc : Climbing h below curr (f :: path)) (hx : h.read curr = some nx)
    (hp : h.read f.label.ptr = some np) (hnp : np.parent = top path)
    (hx' : ∃ n, h'.read curr = some n ∧ n.parent = np.parent ∧ ∀ c, n.HasChild c → c = f.label.ptr ∨ nx.HasChild c)
    (hp' : ∃ n, h'.read f.label.ptr = some n ∧ ∀ c, n.HasChild c → np.HasChild c ∨ nx.HasChild c)
    (hrest : ∀ q n, q ≠ curr → q ≠ f.label.ptr → top path ≠ some q → h.read q = some n →
      ∃ n', h'.read q = some n' ∧ ∀ c, n'.HasChild c → n.HasChild c)
    (habove : HoldsPath h' (some curr) path ∨ HoldsPath h' (some f.label.ptr) path) :
    Climbing h' (RbTree.up below f) curr path := by
  have hu := hc.up
  have hcurr : RbTree.up below f curr := Or.inl hc.curr
  have hne : curr ≠ f.label.ptr := fun heq => hc.apart curr hc.curr (mem_ptrs_path.mpr (Or.inl heq))
  obtain ⟨n, hn, hself⟩ : ∃ n, h.read curr = some n ∧ ¬n.HasChild curr := by
    obtain ⟨n, hn, -, hself⟩ := hc.parent
    exact ⟨n, hn, hself⟩
  obtain rfl : nx = n := Option.some.inj (hx.symm.trans hn)
  have hbelow : ∀ c, nx.HasChild c → RbTree.up below f c := by
    obtain ⟨n, hn, hnc⟩ := hu.closed curr hcurr
    obtain rfl : nx = n := Option.some.inj (hx.symm.trans hn)
    exact hnc
  obtain ⟨n₁, hn₁, hnp₁, hnc₁⟩ := hx'
  refine ⟨?_, ⟨n₁, hn₁, hnp₁.trans hnp, fun hc₁ => ?_⟩, hcurr, fun q hq => ?_, hu.distinct, hu.apart⟩
  · rcases habove with habove | habove
    · refine ⟨_, habove, ?_⟩
      rintro c ⟨⟩
      exact hcurr
    · refine ⟨_, habove, ?_⟩
      rintro c ⟨⟩
      exact hu.curr
  · exact (hnc₁ curr hc₁).elim hne hself
  · by_cases hqx : q = curr
    · subst hqx
      refine ⟨n₁, hn₁, fun c hcc => ?_⟩
      rcases hnc₁ c hcc with rfl | hcc
      · exact hu.curr
      · exact hbelow c hcc
    by_cases hqp : q = f.label.ptr
    · subst hqp
      obtain ⟨n₂, hn₂, hnc₂⟩ := hp'
      obtain ⟨m, hm, hmc⟩ := hu.closed f.label.ptr hu.curr
      obtain rfl : np = m := Option.some.inj (hp.symm.trans hm)
      exact ⟨n₂, hn₂, fun c hcc => (hnc₂ c hcc).elim (hmc c) (hbelow c)⟩
    · obtain ⟨m, hm, hmc⟩ := hu.closed q hq
      have htop : top path ≠ some q := fun ht => hu.apart q hq (mem_ptrs_of_top ht)
      obtain ⟨n₂, hn₂, hnc₂⟩ := hrest q m hqx hqp htop hm
      exact ⟨n₂, hn₂, fun c hcc => hmc c (hnc₂ c hcc)⟩

/-- A child of `curr` is neither `curr` nor the node above it, and is not on the path. -/
theorem Climbing.inner {nx : TreeNode K T} (hc : Climbing h below curr (f :: path)) (hx : h.read curr = some nx) {a : Ptr}
    (ha : nx.HasChild a) : a ≠ curr ∧ a ≠ f.label.ptr ∧ a ∉ ptrs (before path ++ after path) ∧ ∃ na, h.read a = some na := by
  obtain ⟨n, hn, hself⟩ : ∃ n, h.read curr = some n ∧ ¬n.HasChild curr := by
    obtain ⟨n, hn, -, hself⟩ := hc.parent
    exact ⟨n, hn, hself⟩
  obtain rfl : nx = n := Option.some.inj (hx.symm.trans hn)
  obtain ⟨n, hn, hnc⟩ := hc.closed curr hc.curr
  obtain rfl : nx = n := Option.some.inj (hx.symm.trans hn)
  have hb := hnc a ha
  obtain ⟨na, hna, -⟩ := hc.closed a hb
  refine ⟨?_, ?_, ?_, na, hna⟩
  · rintro rfl
    exact hself ha
  · exact fun heq => hc.apart a hb (mem_ptrs_path.mpr (Or.inl heq))
  · exact fun hm => hc.apart a hb (mem_ptrs_path.mpr (Or.inr (Or.inr hm)))

/-- `rot_left_par` of `curr`: it fails its assertion, or `curr` takes its parent's place. -/
theorem Climbing.rotLeftPar {nx : TreeNode K T} (hc : Climbing h below curr (f :: path)) (hx : h.read curr = some nx) :
    RbTree.rotLeftPar h curr = .error assertion ∨
      ∃ h', RbTree.rotLeftPar h curr = .ok h' ∧ Climbing h' (RbTree.up below f) curr path ∧
        ∀ q, below q → q ≠ curr → nx.left ≠ some q → h'.read q = h.read q := by
  obtain ⟨child, habove, hchild⟩ := hc.above
  obtain ⟨np, hp, hpp, -⟩ := habove.frame
  obtain ⟨n, hn, hxp, -⟩ := hc.parent
  obtain rfl : nx = n := Option.some.inj (hx.symm.trans hn)
  have hne : curr ≠ f.label.ptr := fun heq => hc.apart curr hc.curr (mem_ptrs_path.mpr (Or.inl heq))
  have hinner : ∀ a, nx.left = some a → a ≠ curr ∧ a ≠ f.label.ptr ∧ a ∉ ptrs (before path ++ after path) ∧ ∃ na, h.read a = some na :=
    fun a ha => hc.inner hx (Or.inl ha)
  have hu := hc.up
  have htop : ∀ g, np.parent = some g → g ∈ ptrs (before path ++ after path) := fun g hg => mem_ptrs_of_top (hpp.symm.trans hg)
  by_cases hdir : np.childDir curr = .ok .right
  · -- the assertion holds, and the node above has the parent as its child
    have hleft : np.left ≠ some curr := by
      intro hl
      simp [TreeNode.childDir, hl] at hdir
    have hright : np.right = some curr := by
      by_contra hr
      simp [TreeNode.childDir, hleft, hr] at hdir
    obtain ⟨h', hrot, hcells⟩ := rotLeftPar_reads hx hp hxp hleft hright hne
      (fun a ha => ⟨(hinner a ha).1, (hinner a ha).2.1, (hinner a ha).2.2.2⟩)
      (fun g hg => by
        have hgm := htop g hg
        obtain ⟨ng, hng, hgc⟩ := habove.tail.1.read_top (hpp.symm.trans hg)
        refine ⟨?_, ?_, fun ha => (hinner g ha).2.2.1 hgm, ng, hng, hgc⟩
        · rintro rfl
          exact hu.apart g (Or.inl hc.curr) hgm
        · rintro rfl
          exact hu.apart _ hu.curr hgm)
    refine Or.inr ⟨h', hrot, hc.rotated hx hp hpp ⟨_, hcells.this, rfl, ?_⟩ ⟨_, hcells.parent, ?_⟩ ?_ (Or.inl ?_), ?_⟩
    · rintro c (hcc | hcc)
      · exact Or.inl (Option.some.inj hcc).symm
      · exact Or.inr (Or.inr hcc)
    · rintro c (hcc | hcc)
      · exact Or.inl (Or.inl hcc)
      · exact Or.inr (Or.inl hcc)
    · intro q m hqx hqp hqt hm
      by_cases hqa : nx.left = some q
      · exact ⟨_, hcells.inner q m hqa hm, fun c hcc => hcc⟩
      · exact ⟨m, (hcells.rest q hqx hqp hqa (by rwa [hpp])).trans hm, fun c hcc => hcc⟩
    · refine habove.tail.1.relink (fun g m hg hm => hcells.above g m (hpp.trans hg) hm) (fun q hq hqt => ?_) ?_
      · refine hcells.rest q ?_ ?_ (fun ha => (hinner q ha).2.2.1 hq) (by rwa [hpp])
        · rintro rfl
          exact hu.apart q (Or.inl hc.curr) hq
        · rintro rfl
          exact hu.apart _ hu.curr hq
      · exact List.nodup_cons.mpr ⟨hu.apart _ hu.curr, hu.distinct⟩
    · intro q hq hqx hqa
      refine hcells.rest q hqx ?_ hqa fun hg => hu.apart q (Or.inl hq) (htop q hg)
      rintro rfl
      exact hc.apart _ hq (mem_ptrs_path.mpr (Or.inl rfl))
  · exact Or.inl (rotLeftPar_asserts hx hxp hp hdir hne fun a ha => ⟨(hinner a ha).1, (hinner a ha).2.1, (hinner a ha).2.2.2⟩)

/-- `rot_right_par` of `curr`: `curr` takes its parent's place, and the node above keeps its child pointer. -/
theorem Climbing.rotRightPar {nx : TreeNode K T} (hc : Climbing h below curr (f :: path)) (hx : h.read curr = some nx) :
    ∃ h', RbTree.rotRightPar h curr = .ok h' ∧ Climbing h' (RbTree.up below f) curr path ∧
      ∀ q, below q → q ≠ curr → nx.right ≠ some q → h'.read q = h.read q := by
  obtain ⟨child, habove, hchild⟩ := hc.above
  obtain ⟨np, hp, hpp, -⟩ := habove.frame
  obtain ⟨n, hn, hxp, -⟩ := hc.parent
  obtain rfl : nx = n := Option.some.inj (hx.symm.trans hn)
  have hne : curr ≠ f.label.ptr := fun heq => hc.apart curr hc.curr (mem_ptrs_path.mpr (Or.inl heq))
  have hinner : ∀ a, nx.right = some a → a ≠ curr ∧ a ≠ f.label.ptr ∧ a ∉ ptrs (before path ++ after path) ∧ ∃ na, h.read a = some na :=
    fun a ha => hc.inner hx (Or.inr ha)
  have hu := hc.up
  obtain ⟨h', hrot, hcells⟩ := rotRightPar_reads hx hp hxp hne
    fun a ha => ⟨(hinner a ha).1, (hinner a ha).2.1, (hinner a ha).2.2.2⟩
  refine ⟨h', hrot, hc.rotated hx hp hpp ⟨_, hcells.this, rfl, ?_⟩ ⟨_, hcells.parent, ?_⟩ ?_ (Or.inr ?_), ?_⟩
  · rintro c (hcc | hcc)
    · exact Or.inr (Or.inl hcc)
    · exact Or.inl (Option.some.inj hcc).symm
  · rintro c (hcc | hcc)
    · exact Or.inr (Or.inr hcc)
    · exact Or.inl (Or.inr hcc)
  · intro q m hqx hqp hqt hm
    by_cases hqa : nx.right = some q
    · exact ⟨_, hcells.inner q m hqa hm, fun c hcc => hcc⟩
    · exact ⟨m, (hcells.rest q hqx hqp hqa).trans hm, fun c hcc => hcc⟩
  · refine habove.tail.1.congr fun q hq => hcells.rest q ?_ ?_ fun ha => (hinner q ha).2.2.1 hq
    · rintro rfl
      exact hu.apart q (Or.inl hc.curr) hq
    · rintro rfl
      exact hu.apart _ hu.curr hq
  · intro q hq hqx hqa
    refine hcells.rest q hqx ?_ hqa
    rintro rfl
    exact hc.apart _ hq (mem_ptrs_path.mpr (Or.inl rfl))

/-- A rotation of `curr` in either direction. -/
theorem Climbing.rotate {nx : TreeNode K T} (dir : Direction) (hc : Climbing h below curr (f :: path)) (hx : h.read curr = some nx) :
    RbTree.rotate h curr dir = .error assertion ∨
      ∃ h', RbTree.rotate h curr dir = .ok h' ∧ Climbing h' (RbTree.up below f) curr path ∧
        ∀ q, below q → q ≠ curr → nx.child dir ≠ some q → h'.read q = h.read q := by
  cases dir with
  | left => exact hc.rotLeftPar hx
  | right => exact Or.inr (hc.rotRightPar hx)

/-! ## A round -/

/-- What a round may do, below a path of the given length: panic, end the loop, or go on below a shorter path. -/
def Climbs (length : Nat) (res : Except Fault (Heap K T × Round)) : Prop :=
  (∃ msg, res = .error (.panic msg)) ∨
    (∃ h curr n, res = .ok (h, .done curr) ∧ h.read curr = some n) ∨
      ∃ h next below path, res = .ok (h, .next next) ∧ Climbing h below next path ∧ path.length < length

/-- The side of `curr`, where the node above has it as its child. -/
theorem Climbing.childDir {np : TreeNode K T} (hc : Climbing h below curr (f :: path)) (hp : h.read f.label.ptr = some np) :
    np.childDir curr = .error assertion ∨ np.childDir curr = .ok (side f) ∧ np.child (side f).rev ≠ some curr := by
  obtain ⟨child, habove, hchild⟩ := hc.above
  obtain ⟨n, hn, -, -, hdir⟩ := habove.frame
  obtain rfl : np = n := Option.some.inj (hp.symm.trans hn)
  have hsib : curr ∉ ptrs f.sibling.inorder := fun hm => hc.apart curr hc.curr (mem_ptrs_path.mpr (Or.inr (Or.inl hm)))
  have hother : np.child (side f).rev = root f.sibling := by
    cases f with
    | left a r =>
      obtain rfl : a.cell (top path) child (root r) = np := Option.some.inj (habove.1.symm.trans hp)
      rfl
    | right l a =>
      obtain rfl : a.cell (top path) (root l) child = np := Option.some.inj (habove.1.symm.trans hp)
      rfl
  have hne : np.child (side f).rev ≠ some curr := by
    rw [hother]
    exact fun hr => hsib (mem_ptrs_of_root hr)
  by_cases hhas : child = some curr
  · exact Or.inr ⟨(hdir curr hhas hsib).1, hne⟩
  · -- the child pointer above is one that a right rotation has left
    refine Or.inl ?_
    have hno : ¬np.HasChild curr := fun hm => (habove.children hp hm).elim hhas fun hr => hsib (mem_ptrs_of_root hr)
    unfold TreeNode.HasChild at hno
    rw [not_or] at hno
    simp [TreeNode.childDir, hno.1, hno.2]

end

section

variable {h : Heap K T} {below : Ptr → Prop} {curr : Ptr} {f g : Frame (Label K T)} {path : Path K T}

/-- The round of a red uncle. -/
theorem Climbing.recolorUncle {uncle : Ptr} (hc : Climbing h below curr (f :: g :: path)) (hu : root g.sibling = some uncle) :
    Climbs (path.length + 2) (RbTree.recolorUncle h curr f.label.ptr g.label.ptr uncle) := by
  have hup := hc.up.up
  obtain ⟨h₁, hset₁, hc₁, -⟩ := hup.setColor (q := f.label.ptr) (Or.inl (Or.inr (Or.inl rfl))) .black
  obtain ⟨h₂, hset₂, hc₂, -⟩ := hc₁.setColor (q := uncle) (Or.inr (Or.inr (mem_ptrs_of_root hu))) .black
  obtain ⟨n, hn, hnp, -⟩ := hc₂.parent
  obtain ⟨m, hm, -⟩ := hc₂.closed curr (Or.inl (Or.inl hc.curr))
  by_cases hroot : n.parent.isNone
  · have hnone := Option.isNone_iff_eq_none.mp hroot
    exact Or.inr (Or.inl ⟨h₂, curr, m, by simp [RbTree.recolorUncle, hset₁, hset₂, Heap.node_eq hn, hnone], hm⟩)
  · obtain ⟨h₃, hset₃, hc₃, -⟩ := hc₂.setColor hc₂.curr .red
    refine Or.inr (Or.inr ⟨h₃, g.label.ptr, _, path, ?_, hc₃, by omega⟩)
    simp only [RbTree.recolorUncle, hset₁, hset₂, hset₃, Heap.node_eq hn, hroot, ok_bind]
    rfl

/-- The next round after rotations, at the parent that `curr` has now. -/
theorem Climbing.checkNext (hc : Climbing h below curr path) : Climbs (path.length + 1) (RbTree.checkNext h curr) := by
  obtain ⟨n, hn, hnp, -⟩ := hc.parent
  cases path with
  | nil => exact Or.inr (Or.inl ⟨h, curr, n, by simp [RbTree.checkNext, Heap.node_eq hn, hnp], hn⟩)
  | cons f path =>
    refine Or.inr (Or.inr ⟨h, f.label.ptr, _, path, by simp [RbTree.checkNext, Heap.node_eq hn, hnp], hc.up, ?_⟩)
    rw [List.length_cons]
    omega

theorem Climbs.mono {m n : Nat} {res : Except Fault (Heap K T × Round)} (hr : Climbs m res) (hmn : m ≤ n) : Climbs n res := by
  rcases hr with hp | hd | ⟨h, next, below, path, heq, hc, hlt⟩
  · exact Or.inl hp
  · exact Or.inr (Or.inl hd)
  · exact Or.inr (Or.inr ⟨h, next, below, path, heq, hc, Nat.lt_of_lt_of_le hlt hmn⟩)

/-- One rotation, of the parent: `curr` stays below it. -/
theorem Climbing.rotateParent {np : TreeNode K T} (dir : Direction) (hc : Climbing h below curr (f :: g :: path))
    (hp : h.read f.label.ptr = some np) (hinner : np.child dir ≠ some curr) :
    Climbs (path.length + 2)
      (rotateAndRecolor h curr f.label.ptr g.label.ptr (dir, none) >>= fun h => RbTree.checkNext h curr) := by
  rcases hc.up.rotate dir hp with herr | ⟨h₁, hrot, hc₁, hsame⟩
  · exact Or.inl ⟨"assertion failed", by simp [rotateAndRecolor, herr, assertion]⟩
  · obtain ⟨n, hn, hnp, -⟩ := hc.parent
    have hne : curr ≠ f.label.ptr := fun heq => hc.apart curr hc.curr (mem_ptrs_path.mpr (Or.inl heq))
    have hn₁ : h₁.read curr = some n := (hsame curr (Or.inl hc.curr) hne hinner).trans hn
    obtain ⟨h₂, hset₂, hc₂, hpar₂⟩ := hc₁.setColor (q := g.label.ptr) (Or.inr (Or.inl rfl)) .red
    obtain ⟨h₃, hset₃, hc₃, hpar₃⟩ := hc₂.setColor hc₂.curr .black
    obtain ⟨n₂, hn₂, hnp₂⟩ := hpar₂ curr n hn₁
    obtain ⟨n₃, hn₃, hnp₃⟩ := hpar₃ curr n₂ hn₂
    have hnext : n₃.parent = some f.label.ptr := hnp₃.trans (hnp₂.trans hnp)
    refine Or.inr (Or.inr ⟨h₃, f.label.ptr, _, path, ?_, hc₃, by omega⟩)
    simp [rotateAndRecolor, hrot, hset₂, hset₃, RbTree.checkNext, Heap.node_eq hn₃, hnext]

/-- Two rotations, of `curr`: it takes the grandparent's place. -/
theorem Climbing.rotateTwice (dir dir' : Direction) (hc : Climbing h below curr (f :: g :: path)) :
    Climbs (path.length + 2)
      (rotateAndRecolor h curr f.label.ptr g.label.ptr (dir, some dir') >>= fun h => RbTree.checkNext h curr) := by
  obtain ⟨n, hn, -⟩ := hc.parent
  rcases hc.rotate dir hn with herr | ⟨h₁, hrot₁, hc₁, -⟩
  · exact Or.inl ⟨"assertion failed", by simp [rotateAndRecolor, herr, assertion]⟩
  obtain ⟨n₁, hn₁, -⟩ := hc₁.parent
  rcases hc₁.rotate dir' hn₁ with herr | ⟨h₂, hrot₂, hc₂, -⟩
  · exact Or.inl ⟨"assertion failed", by simp [rotateAndRecolor, hrot₁, herr, assertion]⟩
  · obtain ⟨h₃, hset₃, hc₃, -⟩ := hc₂.setColor hc₂.curr .black
    obtain ⟨h₄, hset₄, hc₄, -⟩ := hc₃.setColor (q := f.label.ptr) (Or.inl (Or.inr (Or.inl rfl))) .red
    obtain ⟨h₅, hset₅, hc₅, -⟩ := hc₄.setColor (q := g.label.ptr) (Or.inr (Or.inl rfl)) .red
    have heq : rotateAndRecolor h curr f.label.ptr g.label.ptr (dir, some dir') = .ok h₅ := by
      simp [rotateAndRecolor, hrot₁, hrot₂, hset₃, hset₄, hset₅]
    rw [heq]
    exact hc₅.checkNext.mono (by omega)

/-- A round with rotations. -/
theorem Climbing.rotateUncle (hc : Climbing h below curr (f :: g :: path)) :
    Climbs (path.length + 2) (RbTree.rotateUncle h curr f.label.ptr g.label.ptr) := by
  obtain ⟨child, habove, -⟩ := hc.above
  obtain ⟨np, hp, -⟩ := habove.frame
  obtain ⟨ng, hg, -⟩ := habove.tail.1.frame
  unfold RbTree.rotateUncle
  rw [Heap.node_eq hg, ok_bind]
  rcases hc.up.childDir hg with herr | ⟨hgdir, -⟩
  · exact Or.inl ⟨"assertion failed", by simp [herr, assertion]⟩
  rw [hgdir, ok_bind, Heap.node_eq hp, ok_bind]
  rcases hc.childDir hp with herr | ⟨hpdir, hinner⟩
  · exact Or.inl ⟨"assertion failed", by simp [herr, assertion]⟩
  rw [hpdir, ok_bind]
  unfold mapRotations
  split
  · next hside =>
    rw [hside]
    exact hc.rotateParent _ hp hinner
  · exact hc.rotateTwice _ _

end

section

variable {h : Heap K T} {below : Ptr → Prop} {curr : Ptr} {f : Frame (Label K T)} {path : Path K T}

/-- Every round panics, ends the loop, or goes on below a shorter path. -/
theorem Climbing.recolorRound (hc : Climbing h below curr (f :: path)) :
    Climbs (path.length + 1) (RbTree.recolorRound h curr f.label.ptr) := by
  obtain ⟨child, habove, -⟩ := hc.above
  obtain ⟨np, hp, hpp, hpc, -⟩ := habove.frame
  obtain ⟨n, hn, -⟩ := hc.parent
  unfold RbTree.recolorRound
  rw [Heap.node_eq hp, ok_bind]
  by_cases hblack : np.color = .black
  · exact Or.inr (Or.inl ⟨h, curr, n, by rw [if_pos hblack], hn⟩)
  rw [if_neg hblack, ok_bind, hpp]
  cases path with
  | nil => exact Or.inl ⟨"weird state!", rfl⟩
  | cons g path =>
    obtain ⟨ng, hg, -, -, hgdir⟩ := habove.tail.1.frame
    have hsib : f.label.ptr ∉ ptrs g.sibling.inorder := fun hm =>
      hc.up.apart _ hc.up.curr (mem_ptrs_path.mpr (Or.inr (Or.inl hm)))
    simp only [top_cons, Heap.node_eq hg, ok_bind, (hgdir _ rfl hsib).2]
    cases hroot : root g.sibling with
    | none => exact hc.rotateUncle
    | some uncle =>
      obtain ⟨m, hm, -⟩ := habove.tail.1.tail.2.read_root hroot
      simp only [Heap.node_eq hm, ok_bind]
      split
      · exact hc.recolorUncle hroot
      · exact hc.rotateUncle

end

/-! ## The loop -/

/-- A call returns or panics. -/
def Ends {α : Type} (res : Except Fault α) : Prop := (∃ a, res = .ok a) ∨ ∃ msg, res = .error (.panic msg)

/-- The node has so many nodes above it, by its parent pointers. -/
inductive Ancestors (h : Heap K T) : Ptr → Nat → Prop where
  | root {p : Ptr} {n : TreeNode K T} : h.read p = some n → n.parent = none → Ancestors h p 0
  | child {p q : Ptr} {n : TreeNode K T} {d : Nat} : h.read p = some n → n.parent = some q → Ancestors h q d → Ancestors h p (d + 1)

/-- A round of the loop that goes on, from the first heap and `curr` to the second. -/
def Continues (s s' : Heap K T × Ptr) : Prop :=
  ∃ n parent, s.1.read s.2 = some n ∧ n.parent = some parent ∧ RbTree.recolorRound s.1 s.2 parent = .ok (s'.1, .next s'.2)

section

variable {h : Heap K T} {below : Ptr → Prop} {curr : Ptr} {path : Path K T}

theorem Climbing.ancestors (hc : Climbing h below curr path) : Ancestors h curr path.length := by
  induction path generalizing below curr with
  | nil =>
    obtain ⟨n, hn, hnp, -⟩ := hc.parent
    exact .root hn hnp
  | cons f path ih =>
    obtain ⟨n, hn, hnp, -⟩ := hc.parent
    exact .child hn hnp (ih hc.up)

/-- A round that goes on shortens the path. -/
theorem Climbing.continues {s : Heap K T × Ptr} (hc : Climbing h below curr path) (hs : Continues (h, curr) s) :
    ∃ below' path', Climbing s.1 below' s.2 path' ∧ path'.length < path.length := by
  obtain ⟨n, parent, hn, hnp, hround⟩ := hs
  obtain ⟨m, hm, hmp, -⟩ := hc.parent
  obtain rfl : n = m := Option.some.inj (hn.symm.trans hm)
  cases path with
  | nil =>
    rw [hnp] at hmp
    cases hmp
  | cons f path =>
    obtain rfl : parent = f.label.ptr := Option.some.inj (hnp.symm.trans hmp)
    rcases hc.recolorRound with ⟨msg, herr⟩ | ⟨h', c, k, hdone, -⟩ | ⟨h', next, below', path', hnext, hc', hlt⟩
    · rw [hround] at herr
      cases herr
    · rw [hround] at hdone
      cases hdone
    · rw [hround] at hnext
      cases hnext
      exact ⟨below', path', hc', hlt⟩

/-- The loop ends after as many rounds as the path has nodes. -/
theorem Climbing.recolorLoop {fuel : Nat} (hc : Climbing h below curr path) (hfuel : path.length ≤ fuel) :
    (∃ h' c n, RbTree.recolorLoop fuel h curr = .ok (h', c) ∧ h'.read c = some n) ∨
      ∃ msg, RbTree.recolorLoop fuel h curr = .error (.panic msg) := by
  induction fuel generalizing h below curr path with
  | zero =>
    obtain rfl := List.length_eq_zero_iff.mp (Nat.le_zero.mp hfuel)
    obtain ⟨n, hn, hnp, -⟩ := hc.parent
    exact Or.inl ⟨h, curr, n, by simp [RbTree.recolorLoop, Heap.node_eq hn, hnp], hn⟩
  | succ fuel ih =>
    obtain ⟨n, hn, hnp, -⟩ := hc.parent
    cases path with
    | nil => exact Or.inl ⟨h, curr, n, by simp [RbTree.recolorLoop, Heap.node_eq hn, hnp], hn⟩
    | cons f path =>
      rcases hc.recolorRound with ⟨msg, herr⟩ | ⟨h', c, k, hdone, hk⟩ | ⟨h', next, below', path', hnext, hc', hlt⟩
      · exact Or.inr ⟨msg, by simp [RbTree.recolorLoop, Heap.node_eq hn, hnp, herr]⟩
      · exact Or.inl ⟨h', c, k, by simp [RbTree.recolorLoop, Heap.node_eq hn, hnp, hdone], hk⟩
      · have heq : RbTree.recolorLoop (fuel + 1) h curr = RbTree.recolorLoop fuel h' next := by
          simp [RbTree.recolorLoop, Heap.node_eq hn, hnp, hnext]
        rw [heq]
        rw [List.length_cons] at hfuel
        exact ih hc' (by omega)

/-- The rest of `recolor_2` after its loop. -/
theorem Climbing.recolor2 {t : RbTree K T} {fuel : Nat} (hc : Climbing t.heap below curr path) (hfuel : path.length ≤ fuel) :
    Ends (RbTree.recolor2 fuel t curr) := by
  rcases hc.recolorLoop hfuel with ⟨h', c, n, heq, hn⟩ | ⟨msg, herr⟩
  · refine Or.inl ?_
    by_cases hroot : n.parent = none
    · refine ⟨{ val := some c, heap := h'.modify c fun n => { n with color := .black } }, ?_⟩
      simp [RbTree.recolor2, heq, Heap.node_eq hn, hroot, Heap.setColor, Heap.update_eq _ hn]
    · exact ⟨{ t with heap := h' }, by simp [RbTree.recolor2, heq, Heap.node_eq hn, hroot]⟩
  · exact Or.inr ⟨msg, by simp [RbTree.recolor2, herr]⟩

/-- The loop starts so at any node of a tree. -/
theorem Focus.climbing {a : Label K T} {l r : Shape K T} (hf : Focus h path (.node a l r)) :
    Climbing h (· ∈ ptrs (BinaryTree.node a l r).inorder) a.ptr path := by
  have hd := List.nodup_append.mp hf.nodup
  have hself : a.ptr ∉ ptrs l.inorder ∧ a.ptr ∉ ptrs r.inorder := by
    have hdt := hd.1
    rw [inorder_node, ptrs_append, ptrs_cons, List.nodup_middle, List.nodup_cons, List.mem_append, not_or] at hdt
    exact hdt.1
  refine ⟨⟨some a.ptr, hf.above, ?_⟩, ⟨_, hf.read, rfl, ?_⟩, by simp, fun q hq => hf.below.children hq, hd.2.1, ?_⟩
  · rintro c ⟨⟩
    simp
  · rintro (hc | hc)
    · exact hself.1 (mem_ptrs_of_root hc)
    · exact hself.2 (mem_ptrs_of_root hc)
  · exact fun q hq hm => hd.2.2 q hq q hm rfl

end

end MiriWeirdness.RbTree
