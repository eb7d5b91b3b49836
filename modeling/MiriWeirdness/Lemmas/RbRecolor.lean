import MiriWeirdness.Lemmas.RbFixup

/-!
# The loop of `recolor_2` follows the fix-up

A round of the loop on a heap is a round of `fixup` on the tree the heap holds, as long as the rotation, if there is one, relinks the
node above. The loop never meets a red root (`weird state!`) when the root is black, and it uses a unit of fuel for two frames.
-/

namespace MiriWeirdness.RbTree

open BinaryTree

variable {K T : Type}

/-! ## Reading the nodes above -/

/-- The node of the nearest frame. -/
theorem HoldsPath.frame {h : Heap K T} {child : Option Ptr} {f : Frame (Label K T)} {path : Path K T} (hp : HoldsPath h child (f :: path)) :
    ∃ n, h.read f.label.ptr = some n ∧ n.parent = top path ∧ n.color = f.label.color ∧
      ∀ c, child = some c → c ∉ ptrs f.sibling.inorder → n.childDir c = .ok (side f) ∧ n.getSibling c = .ok (root f.sibling) := by
  cases f with
  | left a r =>
    refine ⟨_, hp.1, rfl, rfl, fun c hc _ => ?_⟩
    simp [TreeNode.childDir, TreeNode.getSibling, Label.cell, hc, side, Frame.sibling]
  | right l a =>
    refine ⟨_, hp.1, rfl, rfl, fun c hc hcl => ?_⟩
    have hl : root l ≠ some c := fun hl => hcl (mem_ptrs_of_root hl)
    simp [TreeNode.childDir, TreeNode.getSibling, Label.cell, hc, hl, side, Frame.sibling]

/-- The child pointer that a path has for its subtree. -/
theorem HoldsPath.read_child {h : Heap K T} {f : Frame (Label K T)} {path : Path K T} {child : Option Ptr}
    (hp : HoldsPath h child (f :: path)) : ∃ n, h.read f.label.ptr = some n ∧ n.child (side f) = child := by
  cases f with
  | left a r => exact ⟨_, hp.1, rfl⟩
  | right l a => exact ⟨_, hp.1, rfl⟩

/-- The sibling of a frame is among what is around its subtree. -/
theorem mem_ptrs_of_sibling {f : Frame (Label K T)} (path : Path K T) {q : Ptr} (hq : q ∈ ptrs f.sibling.inorder) :
    q ∈ ptrs (before (f :: path) ++ after (f :: path)) := by
  cases f with
  | left a r =>
    have hq : q ∈ ptrs r.inorder := hq
    simp [before, after, hq]
  | right l a =>
    have hq : q ∈ ptrs l.inorder := hq
    simp [before, after, hq]

theorem Focus.frame {h : Heap K T} {f : Frame (Label K T)} {path : Path K T} {t : Shape K T} (hf : Focus h (f :: path) t) :
    ∃ n, h.node f.label.ptr = .ok n ∧ n.parent = top path ∧ n.color = f.label.color ∧
      ∀ c, root t = some c → n.childDir c = .ok (side f) ∧ n.getSibling c = .ok (root f.sibling) := by
  obtain ⟨n, hn, hp, hc, hdir⟩ := hf.above.frame
  refine ⟨n, Heap.node_eq hn, hp, hc, fun c hct => hdir c hct fun hcs => ?_⟩
  have hd := hf.nodup
  rw [List.nodup_append] at hd
  exact hd.2.2 c (mem_ptrs_of_root hct) c (mem_ptrs_of_sibling path hcs) rfl

/-- The frame that leaves out the other child. -/
def flip (f : Frame (Label K T)) (t : Shape K T) : Frame (Label K T) :=
  match f with
  | .left a _ => .right t a
  | .right _ a => .left a t

@[simp] theorem fill_flip (f : Frame (Label K T)) (t : Shape K T) : (flip f t).fill f.sibling = f.fill t := by
  cases f <;> rfl

@[simp] theorem fill_flip_paint (c : Color) (f : Frame (Label K T)) (t : Shape K T) :
    (flip f t).fill (paint c f.sibling) = (paintSibling c f).fill t := by
  cases f <;> rfl

/-- Looking at the sibling of a subtree. -/
theorem Focus.sibling {h : Heap K T} {f : Frame (Label K T)} {path : Path K T} {t : Shape K T} (hf : Focus h (f :: path) t) :
    Focus h (flip f t :: path) f.sibling := by
  rw [focus_cons_iff, fill_flip]
  exact focus_cons_iff.mp hf

/-- `set_color` through a pointer to the root of the nearest frame's sibling. -/
theorem Focus.setSiblingColor {h : Heap K T} {f : Frame (Label K T)} {path : Path K T} {t : Shape K T} {b : Label K T} {l r : Shape K T}
    (c : Color) (hf : Focus h (f :: path) t) (hs : f.sibling = .node b l r) :
    ∃ h', h.setColor b.ptr c = .ok h' ∧ h'.size = h.size ∧ Focus h' (paintSibling c f :: path) t := by
  have hsib := hf.sibling
  rw [hs] at hsib
  obtain ⟨h', heq, hsize, hf'⟩ := hsib.setColor c
  refine ⟨h', heq, hsize, ?_⟩
  rw [focus_cons_iff, ← hs, fill_flip_paint] at hf'
  exact focus_cons_iff.mpr hf'

/-- `set_color` through a pointer to the node of the nearest frame. -/
theorem Focus.setFrameColor {h : Heap K T} {f : Frame (Label K T)} {path : Path K T} {t : Shape K T} (c : Color)
    (hf : Focus h (f :: path) t) :
    ∃ h', h.setColor f.label.ptr c = .ok h' ∧ h'.size = h.size ∧ Focus h' path (paint c (f.fill t)) := by
  cases f with
  | left a r => exact (focus_cons_iff.mp hf).setColor c
  | right l a => exact (focus_cons_iff.mp hf).setColor c

/-! ## The rounds -/

section

variable {h : Heap K T} {f g : Frame (Label K T)} {path : Path K T} {t : Shape K T} {curr : Ptr}

/-- A round below a black parent ends the loop. -/
theorem recolorRound_black (hf : Focus h (f :: path) t) (hc : f.label.color = .black) :
    recolorRound h curr f.label.ptr = .ok (h, .done curr) := by
  obtain ⟨n, hn, -, hcol, -⟩ := hf.frame
  simp [recolorRound, hn, hcol, hc]

/-- A round of a red uncle. -/
theorem recolorRound_red (hf : Focus h (f :: g :: path) t) (hc : f.label.color = .red) (hu : rootColor g.sibling = .red) :
    ∃ h', h'.size = h.size ∧
      recolorRound h curr f.label.ptr = .ok (h', if path.isEmpty then .done curr else .next g.label.ptr) ∧
      Focus h' path (if path.isEmpty then recolored f g t else paint .red (recolored f g t)) := by
  obtain ⟨p, hp, hpp, hpc, -⟩ := hf.frame
  have hg : Focus h (g :: path) (f.fill t) := focus_cons_iff.mp hf
  obtain ⟨n, hn, -, -, hn'⟩ := hg.frame
  obtain ⟨-, hsib⟩ := hn' f.label.ptr (root_fill f t)
  obtain ⟨b, l, r, hb⟩ : ∃ b l r, g.sibling = .node b l r := by
    cases hs : g.sibling with
    | nil => simp [hs] at hu
    | node b l r => exact ⟨b, l, r, rfl⟩
  have hbc : b.color = .red := by simpa [hb] using hu
  have hread := hg.sibling
  rw [hb] at hread
  have hm := Heap.node_eq hread.read
  -- the parent, then the uncle, become black
  obtain ⟨h₁, hset₁, hsize₁, hf₁⟩ := hf.setFrameColor .black
  obtain ⟨h₂, hset₂, hsize₂, hf₂⟩ := hf₁.setSiblingColor .black hb
  obtain ⟨q, hq, hqp, -⟩ := hf₂.frame
  have hlabel : (paintSibling .black g).label = g.label := by cases g <;> rfl
  rw [hlabel] at hq
  have hround : recolorRound h curr f.label.ptr = recolorUncle h curr f.label.ptr g.label.ptr b.ptr := by
    simp [recolorRound, hp, hpc, hc, hpp, hn, hsib, hb, hm, Label.cell, hbc]
  cases path with
  | nil =>
    refine ⟨h₂, by rw [hsize₂, hsize₁], ?_, focus_cons_iff.mp hf₂⟩
    rw [hround]
    simp [recolorUncle, hset₁, hset₂, hq, hqp]
  | cons k path =>
    obtain ⟨h₃, hset₃, hsize₃, hf₃⟩ := hf₂.setFrameColor .red
    rw [hlabel] at hset₃
    refine ⟨h₃, by rw [hsize₃, hsize₂, hsize₁], ?_, hf₃⟩
    rw [hround]
    simp [recolorUncle, hset₁, hset₂, hq, hqp, hset₃]

/-- A round of an uncle that is not red. -/
theorem recolorRound_rotate (hf : Focus h (f :: g :: path) t) (hc : f.label.color = .red) (hu : rootColor g.sibling = .black) :
    recolorRound h curr f.label.ptr = rotateUncle h curr f.label.ptr g.label.ptr := by
  obtain ⟨p, hp, hpp, hpc, -⟩ := hf.frame
  have hg : Focus h (g :: path) (f.fill t) := focus_cons_iff.mp hf
  obtain ⟨n, hn, -, -, hn'⟩ := hg.frame
  obtain ⟨-, hsib⟩ := hn' f.label.ptr (root_fill f t)
  cases hs : g.sibling with
  | nil => simp [recolorRound, hp, hpc, hc, hpp, hn, hsib, hs]
  | node b l r =>
    have hbc : b.color = .black := by simpa [hs] using hu
    have hread := hg.sibling
    rw [hs] at hread
    simp [recolorRound, hp, hpc, hc, hpp, hn, hsib, hs, Heap.node_eq hread.read, Label.cell, hbc]

/-- The directions of a round's rotations are those of the frames. -/
theorem rotateUncle_eq (hf : Focus h (f :: g :: path) t) (hroot : root t = some curr) :
    rotateUncle h curr f.label.ptr g.label.ptr =
      (rotateAndRecolor h curr f.label.ptr g.label.ptr (mapRotations (side g) (side f)) >>= fun h => checkNext h curr) := by
  obtain ⟨p, hp, -, -, hp'⟩ := hf.frame
  obtain ⟨n, hn, -, -, hn'⟩ := (focus_cons_iff.mp hf).frame
  simp [rotateUncle, hp, hn, (hp' curr hroot).1, (hn' f.label.ptr (root_fill f t)).1]

end

section

variable {h : Heap K T} {ga fa : Label K T} {x : Label K T} {l r : Shape K T} {path : Path K T}

/-- The next value of `curr` after rotations is the node above it. -/
theorem checkNext_eq (hf : Focus h path (.node x l r)) :
    checkNext h x.ptr = .ok (h, match top path with
      | some check => .next check
      | none => .done x.ptr) := by
  simp only [checkNext, Heap.node_eq hf.read, ok_bind, Label.cell]
  cases top path <;> rfl

/-- The rotation of a right child of a right child, anywhere in the tree. -/
theorem rotateUncle_left {gl fl : Shape K T} (hf : Focus h (.right fl fa :: .right gl ga :: path) (.node x l r)) :
    ∃ h', h'.size = h.size ∧ rotateUncle h x.ptr fa.ptr ga.ptr = .ok (h', .next fa.ptr) ∧
      Focus h' path (turnedLeft ga fa gl fl (.node x l r)) := by
  have heq := rotateUncle_eq hf rfl
  obtain ⟨h₁, hrot, hsize₁, hf₁⟩ := (focus_cons_iff.mp hf).rotLeftPar
  -- the grandparent is the left child of the parent now
  have hf₁' : Focus h₁ (.left fa (.node x l r) :: path) (.node ga gl fl) := focus_cons_iff.mpr hf₁
  obtain ⟨h₂, hset₂, hsize₂, hf₂⟩ := hf₁'.setColor .red
  obtain ⟨h₃, hset₃, hsize₃, hf₃⟩ := hf₂.setFrameColor .black
  have hcurr : Focus h₃ (.right (paint .red (.node ga gl fl)) { fa with color := .black } :: path) (.node x l r) :=
    focus_cons_iff.mpr hf₃
  refine ⟨h₃, by rw [hsize₃, hsize₂, hsize₁], ?_, hf₃⟩
  simp only [Frame.label] at heq hset₃
  rw [heq]
  simp [mapRotations, side, Direction.rev, rotateAndRecolor, rotate, hrot, hset₂, hset₃, checkNext_eq hcurr, Frame.label]

/-- The rotation of a left child of a left child of the root. -/
theorem rotateUncle_right {gr fr : Shape K T} (hf : Focus h [.left fa fr, .left ga gr] (.node x l r)) :
    ∃ h', h'.size = h.size ∧ rotateUncle h x.ptr fa.ptr ga.ptr = .ok (h', .next fa.ptr) ∧
      Focus h' [] (turnedRight ga fa gr fr (.node x l r)) := by
  have heq := rotateUncle_eq hf rfl
  obtain ⟨h₁, hrot, hsize₁, hf₁⟩ := (focus_cons_iff.mp hf).rotRightPar_root
  have hf₁' : Focus h₁ [.right (.node x l r) fa] (.node ga fr gr) := focus_cons_iff.mpr hf₁
  obtain ⟨h₂, hset₂, hsize₂, hf₂⟩ := hf₁'.setColor .red
  obtain ⟨h₃, hset₃, hsize₃, hf₃⟩ := hf₂.setFrameColor .black
  have hcurr : Focus h₃ [.left { fa with color := .black } (paint .red (.node ga fr gr))] (.node x l r) :=
    focus_cons_iff.mpr hf₃
  refine ⟨h₃, by rw [hsize₃, hsize₂, hsize₁], ?_, hf₃⟩
  simp only [Frame.label] at heq hset₃
  rw [heq]
  simp [mapRotations, side, Direction.rev, rotateAndRecolor, rotate, hrot, hset₂, hset₃, checkNext_eq hcurr, Frame.label]

/-- The two rotations of a right child of a left child of the root. -/
theorem rotateUncle_twice {gr fl : Shape K T} (hf : Focus h [.right fl fa, .left ga gr] (.node x l r)) :
    ∃ h', h'.size = h.size ∧ rotateUncle h x.ptr fa.ptr ga.ptr = .ok (h', .done x.ptr) ∧
      Focus h' [] (turnedTwice ga fa gr fl (.node x l r)) := by
  have heq := rotateUncle_eq hf rfl
  obtain ⟨h₁, hrot₁, hsize₁, hf₁⟩ := hf.rotLeftPar
  obtain ⟨h₂, hrot₂, hsize₂, hf₂⟩ := hf₁.rotRightPar_root
  obtain ⟨h₃, hset₃, hsize₃, hf₃⟩ := hf₂.setColor .black
  have hf₃' : Focus h₃ [.left { x with color := .black } (.node ga r gr)] (.node fa fl l) := focus_cons_iff.mpr hf₃
  obtain ⟨h₄, hset₄, hsize₄, hf₄⟩ := hf₃'.setColor .red
  have hf₄' : Focus h₄ [.right (paint .red (.node fa fl l)) { x with color := .black }] (.node ga r gr) := hf₄.sibling
  obtain ⟨h₅, hset₅, hsize₅, hf₅⟩ := hf₄'.setColor .red
  have hcurr : Focus h₅ [] (turnedTwice ga fa gr fl (.node x l r)) := focus_cons_iff.mp hf₅
  refine ⟨h₅, by rw [hsize₅, hsize₄, hsize₃, hsize₂, hsize₁], ?_, hcurr⟩
  have hnext := checkNext_eq hcurr
  simp only [Frame.label] at heq
  rw [heq]
  simpa [mapRotations, side, Direction.rev, rotateAndRecolor, rotate, hrot₁, hrot₂, hset₃, hset₄, hset₅] using hnext

/-- The rotations of a left child of a right child: the first leaves the grandparent's child pointer, and the second asserts it. -/
theorem rotateUncle_asserts {gl fr : Shape K T} (hf : Focus h (.left fa fr :: .right gl ga :: path) (.node x l r)) :
    rotateUncle h x.ptr fa.ptr ga.ptr = .error assertion := by
  have heq := rotateUncle_eq hf rfl
  have ht : Turning x.ptr fa.ptr (ptrs r.inorder) (ptrs fr.inorder ++ ptrs l.inorder)
      (ptrs (before (.right gl ga :: path) ++ after (.right gl ga :: path))) := hf.turning (Or.inr ⟨rfl, rfl⟩)
  obtain ⟨⟨hp, hfr, hg, hgl, -⟩, ⟨hx, hl, hr⟩, -⟩ := hf
  obtain ⟨hgx, hgp, hgr⟩ := ht.above ga.ptr (mem_ptrs_path.mpr (Or.inl rfl))
  obtain ⟨h₁, hrot, hsize, hx₁, hp₁, hinner, hrest⟩ := rotRightPar_reads hx hp rfl ht.ne fun a ha => by
    obtain ⟨hax, hap⟩ := ht.inner a (mem_ptrs_of_root ha)
    obtain ⟨na, hna, -⟩ := hr.read_root ha
    exact ⟨hax, hap, na, hna⟩
  have hg₁ := (hrest ga.ptr hgx hgp fun ha => hgr (mem_ptrs_of_root ha)).trans hg
  have hfail : RbTree.rotLeftPar h₁ x.ptr = .error assertion := by
    refine rotLeftPar_asserts hx₁ rfl hg₁ ?_ hgx.symm fun a ha => ?_
    · have hgl : root gl ≠ some x.ptr := fun ha =>
        (ht.above x.ptr (mem_ptrs_path.mpr (Or.inr (Or.inl (mem_ptrs_of_root ha))))).1 rfl
      simp [TreeNode.childDir, Label.cell, hgl, ht.ne.symm]
    · obtain ⟨hax, hap, har, hag⟩ := ht.others a (List.mem_append_right _ (mem_ptrs_of_root ha))
      obtain ⟨na, hna, -⟩ := hl.read_root ha
      refine ⟨hax, ?_, na, (hrest a hax hap fun ha' => har (mem_ptrs_of_root ha')).trans hna⟩
      rintro rfl
      exact hag (mem_ptrs_path.mpr (Or.inl rfl))
  simp only [Frame.label] at heq
  rw [heq]
  simp [mapRotations, side, Direction.rev, rotateAndRecolor, rotate, hrot, hfail]

end

/-! ## The loop -/

section

variable {h h' : Heap K T} {path : Path K T} {f : Frame (Label K T)} {t : Shape K T} {curr next : Ptr} {fuel : Nat}

/-- The parent of the root of the focus. -/
theorem Focus.parent (hf : Focus h path t) (hroot : root t = some curr) : ∃ n, h.node curr = .ok n ∧ n.parent = top path := by
  obtain ⟨n, hn, hp⟩ := hf.below.read_root hroot
  exact ⟨n, Heap.node_eq hn, hp⟩

theorem recolorLoop_root (hf : Focus h [] t) (hroot : root t = some curr) : recolorLoop fuel h curr = .ok (h, curr) := by
  obtain ⟨n, hn, hp⟩ := hf.parent hroot
  cases fuel <;> simp [recolorLoop, hn, hp]

theorem recolorLoop_next (hf : Focus h (f :: path) t) (hroot : root t = some curr)
    (hr : recolorRound h curr f.label.ptr = .ok (h', .next next)) :
    recolorLoop (fuel + 1) h curr = recolorLoop fuel h' next := by
  obtain ⟨n, hn, hp⟩ := hf.parent hroot
  simp [recolorLoop, hn, hp, hr]

theorem recolorLoop_done (hf : Focus h (f :: path) t) (hroot : root t = some curr)
    (hr : recolorRound h curr f.label.ptr = .ok (h', .done next)) : recolorLoop (fuel + 1) h curr = .ok (h', next) := by
  obtain ⟨n, hn, hp⟩ := hf.parent hroot
  simp [recolorLoop, hn, hp, hr]

theorem recolorLoop_error {e : Fault} (hf : Focus h (f :: path) t) (hroot : root t = some curr)
    (hr : recolorRound h curr f.label.ptr = .error e) : recolorLoop (fuel + 1) h curr = .error e := by
  obtain ⟨n, hn, hp⟩ := hf.parent hroot
  simp [recolorLoop, hn, hp, hr]

/-- Where `curr` is when the loop, started below `path` at the root of `t`, ends in a heap that holds `t'`: at the root, or below it.
In the second case the root is the one there was, and black. -/
def Ended (h : Heap K T) (curr : Ptr) (path : Path K T) (t t' : Shape K T) : Prop :=
  root t' = some curr ∨
    path ≠ [] ∧ (∃ n, h.node curr = .ok n ∧ n.parent ≠ none) ∧ root t' = root (plug path t) ∧ rootColor t' = .black

/-- The outcome of the loop in a heap of the given size: all its rotations relink and it follows the fix-up, or one of them does not
and it fails. -/
def Follows (size : Nat) (path : Path K T) (t : Shape K T) (r : Except Fault (Heap K T × Ptr)) : Prop :=
  ((∃ q ∈ rotations (rootColor t) path, q.relinks = false) ∧ ∃ e, r = .error e) ∨
    (∀ q ∈ rotations (rootColor t) path, q.relinks = true) ∧
      ∃ h curr, r = .ok (h, curr) ∧ h.size = size ∧ Focus h [] (fixup path t) ∧ Ended h curr path t (fixup path t)

/-- Going on with a fix-up after a round. -/
theorem Follows.round {size : Nat} {f g : Frame (Label K T)} {path : Path K T} {t t' : Shape K T}
    {r : Except Fault (Heap K T × Ptr)} (hr : Follows size path t' r) (hfix : fixup (f :: g :: path) t = fixup path t')
    {qs : List Rotation} (hrots : rotations (rootColor t) (f :: g :: path) = qs ++ rotations (rootColor t') path)
    (hqs : ∀ q ∈ qs, q.relinks = true) : Follows size (f :: g :: path) t r := by
  rw [Follows, hrots]
  rcases hr with ⟨⟨q, hq, hql⟩, he⟩ | ⟨hall, h, curr, heq, hsize, hf, hend⟩
  · exact Or.inl ⟨⟨q, List.mem_append_right _ hq, hql⟩, he⟩
  · rw [← hfix] at hf hend
    refine Or.inr ⟨?_, h, curr, heq, hsize, hf, ?_⟩
    · intro q hq
      rcases List.mem_append.mp hq with hq | hq
      · exact hqs q hq
      · exact hall q hq
    · rcases hend with hroot | ⟨hp, hn, hroot, hcol⟩
      · exact Or.inl hroot
      · exact Or.inr ⟨List.cons_ne_nil _ _, hn, hroot.trans (root_plug hp _ _), hcol⟩

/-- The loop follows the fix-up, unless it fails at an assertion. -/
theorem recolorLoop_follows (hf : Focus h path t) (hroot : root t = some curr) (hb : BlackTop path) (hfuel : path.length ≤ fuel)
    (hrot : ∀ q ∈ rotations (rootColor t) path, q.relinks = true ∨ q.asserts = true) :
    Follows h.size path t (recolorLoop fuel h curr) := by
  induction path, t using fixup.induct generalizing h curr fuel with
  | case1 t => exact Or.inr ⟨by simp [rotations], h, curr, recolorLoop_root hf hroot, rfl, hf, Or.inl hroot⟩
  | case2 f t =>
    obtain ⟨fuel, rfl⟩ := Nat.exists_eq_add_of_le' hfuel
    obtain ⟨n, hn, hp⟩ := hf.parent hroot
    exact Or.inr ⟨by simp [rotations], h, curr, recolorLoop_done hf hroot (recolorRound_black hf hb), rfl, focus_cons_iff.mp hf,
      Or.inr ⟨List.cons_ne_nil _ _, ⟨n, hn, by simp [hp]⟩, rfl, rootColor_plug t hb⟩⟩
  | case3 f g path t hc =>
    obtain ⟨fuel, rfl⟩ := Nat.exists_eq_add_of_le' (Nat.le_trans (by simp) hfuel : 1 ≤ fuel)
    obtain ⟨n, hn, hp⟩ := hf.parent hroot
    rw [Follows, fixup_of_black _ t hc, rotations_black _ _ hc]
    exact Or.inr ⟨by simp, h, curr, recolorLoop_done hf hroot (recolorRound_black hf hc), rfl, focus_plug_iff.mpr hf,
      Or.inr ⟨List.cons_ne_nil _ _, ⟨n, hn, by simp [hp]⟩, rfl, rootColor_plug t hb⟩⟩
  | case4 f g path t hc hu hp =>
    obtain ⟨fuel, rfl⟩ := Nat.exists_eq_add_of_le' (Nat.le_trans (by simp) hfuel : 1 ≤ fuel)
    obtain rfl := List.isEmpty_iff.mp hp
    obtain ⟨h', hsize, hround, hf'⟩ := @recolorRound_red _ _ _ _ _ _ _ curr hf (Color.eq_red hc) hu
    have hfix : fixup [f, g] t = recolored f g t := by simp [fixup, hc, hu]
    -- `curr` is still below its parent and its grandparent, which is the root
    obtain ⟨p, hp⟩ := paint_fill .black f
    have hcurr : Focus h' [p, paintSibling .black g] t := by
      rw [focus_cons_iff, ← hp, focus_cons_iff]
      exact hf'
    obtain ⟨n, hn, hnp⟩ := hcurr.parent hroot
    rw [Follows, hfix, rotations_red _ [] hc hu]
    refine Or.inr ⟨by simp [rotations], h', curr, recolorLoop_done hf hroot hround, hsize, hf',
      Or.inr ⟨List.cons_ne_nil _ _, ⟨n, hn, by simp [hnp]⟩, ?_, ?_⟩⟩
    · cases g <;> rfl
    · cases g <;> exact hb
  | case5 f g path t hc hu hp ih =>
    obtain ⟨fuel, rfl⟩ := Nat.exists_eq_add_of_le' (Nat.le_trans (by simp) hfuel : 1 ≤ fuel)
    obtain ⟨h', hsize, hround, hf'⟩ := @recolorRound_red _ _ _ _ _ _ _ curr hf (Color.eq_red hc) hu
    rw [if_neg hp] at hround hf'
    have hrots : rotations (rootColor t) (f :: g :: path) = rotations .red path := rotations_red _ path hc hu
    have hcol : rootColor (paint .red (recolored f g t)) = .red := by cases g <;> rfl
    have hg : root (paint .red (recolored f g t)) = some g.label.ptr := by cases g <;> rfl
    rw [recolorLoop_next hf hroot hround, ← hsize]
    refine (ih hf' hg hb.tail.tail ?_ ?_).round ?_ ?_ (List.forall_mem_nil _)
    · simp only [List.length_cons] at hfuel
      omega
    · rwa [hcol, ← hrots]
    · cases f <;> cases g <;> rw [fixup, if_neg hc, if_pos hu, if_neg hp]
    · rw [hcol, hrots, List.nil_append]
  | case6 path t gl ga fl fa hc hu ih =>
    obtain ⟨fuel, rfl⟩ := Nat.exists_eq_add_of_le' (Nat.le_trans (by simp) hfuel : 1 ≤ fuel)
    obtain ⟨x, l, r, rfl, rfl⟩ := exists_node_of_root hroot
    obtain ⟨h', hsize, hrotate, hf'⟩ := rotateUncle_left hf
    have hround := (recolorRound_rotate hf (Color.eq_red hc) (Color.eq_black hu)).trans hrotate
    have hrots := rotations_single x.color path hc hu rfl
    rw [recolorLoop_next hf rfl hround, ← hsize]
    rw [rootColor_node, hrots] at hrot
    refine (ih hf' rfl hb.tail.tail ?_ fun q hq => hrot q (List.mem_append_right _ hq)).round ?_ hrots (by simp [Rotation.relinks, side])
    · simp only [List.length_cons] at hfuel
      omega
    · rw [fixup, if_neg hc, if_neg hu]
  | case7 path t ga gr fa fr hc hu ih =>
    obtain ⟨fuel, rfl⟩ := Nat.exists_eq_add_of_le' (Nat.le_trans (by simp) hfuel : 1 ≤ fuel)
    obtain ⟨x, l, r, rfl, rfl⟩ := exists_node_of_root hroot
    -- a right rotation is made at the root only
    have hat := (hrot _ (rotations_rotate x.color path hc hu)).resolve_right (by simp [Rotation.asserts, side])
    obtain rfl := List.isEmpty_iff.mp hat
    obtain ⟨h', hsize, hrotate, hf'⟩ := rotateUncle_right hf
    have hround := (recolorRound_rotate hf (Color.eq_red hc) (Color.eq_black hu)).trans hrotate
    have hfix : fixup [.left fa fr, .left ga gr] (.node x l r) = turnedRight ga fa gr fr (.node x l r) := by
      rw [fixup, if_neg hc, if_neg hu, fixup]
    rw [recolorLoop_next hf rfl hround, recolorLoop_root hf' rfl, Follows, hfix, rotations_single _ [] hc hu rfl]
    exact Or.inr ⟨by simp [Rotation.relinks, side, rotations], h', fa.ptr, rfl, hsize, hf', Or.inl rfl⟩
  | case8 path t ga gr fl fa hc hu =>
    obtain ⟨fuel, rfl⟩ := Nat.exists_eq_add_of_le' (Nat.le_trans (by simp) hfuel : 1 ≤ fuel)
    obtain ⟨x, l, r, rfl, rfl⟩ := exists_node_of_root hroot
    have hat := (hrot _ (rotations_rotate x.color path hc hu)).resolve_right (by simp [Rotation.asserts, side])
    obtain rfl := List.isEmpty_iff.mp hat
    obtain ⟨h', hsize, hrotate, hf'⟩ := rotateUncle_twice hf
    have hround := (recolorRound_rotate hf (Color.eq_red hc) (Color.eq_black hu)).trans hrotate
    have hfix : fixup [.right fl fa, .left ga gr] (.node x l r) = turnedTwice ga fa gr fl (.node x l r) := by
      rw [fixup, if_neg hc, if_neg hu, plug]
    rw [recolorLoop_done hf rfl hround, Follows, hfix, rotations_double _ hc hu (by simp [side])]
    exact Or.inr ⟨by simp [Rotation.relinks, side], h', x.ptr, rfl, hsize, hf', Or.inl rfl⟩
  | case9 path t gl ga fa fr hc hu =>
    obtain ⟨fuel, rfl⟩ := Nat.exists_eq_add_of_le' (Nat.le_trans (by simp) hfuel : 1 ≤ fuel)
    obtain ⟨x, l, r, rfl, rfl⟩ := exists_node_of_root hroot
    have hround := (recolorRound_rotate hf (Color.eq_red hc) (Color.eq_black hu)).trans (rotateUncle_asserts hf)
    exact Or.inl ⟨⟨_, rotations_rotate x.color path hc hu, rfl⟩, assertion, recolorLoop_error hf rfl hround⟩

end

end MiriWeirdness.RbTree
