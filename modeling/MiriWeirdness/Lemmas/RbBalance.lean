import MiriWeirdness.Lemmas.RbFixup

/-!
# Colours

What the fix-up does to the colours. `Balanced` is the balance of a red-black tree, of a given black height, with a root of either
colour; `PathBalanced` is the balance of what is around a subtree of that height. `fixup` keeps both, where its double rotations are of
red nodes. The red-black balance bounds the height of a tree by twice the logarithm of its size.
-/

namespace MiriWeirdness.RbTree

open BinaryTree

variable {K T : Type}

/-- What a node of this colour adds to a count of black nodes. -/
def Color.blacks : Color → Nat
  | .red => 0
  | .black => 1

/-- No red node has a red child, and there are `n` black nodes on every path to a missing child. -/
def Balanced : Shape K T → Nat → Prop
  | .nil, n => n = 0
  | .node a l r, n =>
    (a.color = .red → rootColor l = .black ∧ rootColor r = .black) ∧ ∃ m, n = m + a.color.blacks ∧ Balanced l m ∧ Balanced r m

/-- A red node. -/
theorem balanced_red {a : Label K T} {l r : Shape K T} {n : Nat} (ha : a.color = .red) (hl : Balanced l n) (hr : Balanced r n)
    (hlc : rootColor l = .black) (hrc : rootColor r = .black) : Balanced (.node a l r) n :=
  ⟨fun _ => ⟨hlc, hrc⟩, n, by simp [ha, Color.blacks], hl, hr⟩

/-- A black node. -/
theorem balanced_black {a : Label K T} {l r : Shape K T} {n : Nat} (ha : a.color = .black) (hl : Balanced l n) (hr : Balanced r n) :
    Balanced (.node a l r) (n + 1) :=
  ⟨fun h => absurd (ha.symm.trans h) (by decide), n, by simp [ha, Color.blacks], hl, hr⟩

/-- The colour of the nearest node above; the root may be of either colour. -/
def topColor : Path K T → Color
  | [] => .black
  | f :: _ => f.label.color

/-- What is around a subtree with `n` black nodes on every path, so that the whole is balanced when the subtree is, and is not red
below a red node. -/
def PathBalanced : Nat → Path K T → Prop
  | _, [] => True
  | n, f :: path =>
    Balanced f.sibling n ∧ (f.label.color = .red → rootColor f.sibling = .black ∧ topColor path = .black) ∧
      PathBalanced (n + f.label.color.blacks) path

/-! ## Subtrees and the whole -/

/-- A balanced subtree in a balanced frame. -/
theorem balanced_fill {f : Frame (Label K T)} {t : Shape K T} {n : Nat} (ht : Balanced t n) (hs : Balanced f.sibling n)
    (hred : f.label.color = .red → rootColor t = .black ∧ rootColor f.sibling = .black) :
    Balanced (f.fill t) (n + f.label.color.blacks) := by
  cases f with
  | left a r => exact ⟨hred, n, rfl, ht, hs⟩
  | right l a => exact ⟨fun h => (hred h).symm, n, rfl, hs, ht⟩

/-- A balanced subtree inside a balanced path. -/
theorem balanced_plug {path : Path K T} {t : Shape K T} {n : Nat} (hp : PathBalanced n path) (ht : Balanced t n)
    (hred : topColor path = .red → rootColor t = .black) : ∃ m, Balanced (plug path t) m := by
  induction path generalizing t n with
  | nil => exact ⟨n, ht⟩
  | cons f path ih =>
    obtain ⟨hs, hf, hp⟩ := hp
    refine ih hp (balanced_fill ht hs fun h => ⟨hred h, (hf h).1⟩) fun htop => ?_
    cases hc : f.label.color with
    | black => cases f <;> exact hc
    | red => exact absurd ((hf hc).2.symm.trans htop) (by decide)

/-- The subtrees of a balanced tree are balanced, and so is what is around them. -/
theorem balanced_of_plug {path : Path K T} {t : Shape K T} {n : Nat} (h : Balanced (plug path t) n) :
    ∃ m, Balanced t m ∧ PathBalanced m path ∧ (topColor path = .red → rootColor t = .black) := by
  induction path generalizing t with
  | nil => exact ⟨n, h, trivial, fun h => by cases h⟩
  | cons f path ih =>
    obtain ⟨m, hfill, hp, htop⟩ := ih h
    have hcol : rootColor (f.fill t) = f.label.color := by cases f <;> rfl
    have hnext : f.label.color = .red → topColor path = .black := by
      intro hf
      refine Color.eq_black fun hred => ?_
      rw [hcol, hf] at htop
      exact absurd (htop hred) (by decide)
    cases f with
    | left a r =>
      obtain ⟨hred, k, rfl, ht, hr⟩ := hfill
      exact ⟨k, ht, ⟨hr, fun hf => ⟨(hred hf).2, hnext hf⟩, hp⟩, fun hf => (hred hf).1⟩
    | right l a =>
      obtain ⟨hred, k, rfl, hl, ht⟩ := hfill
      exact ⟨k, ht, ⟨hl, fun hf => ⟨(hred hf).1, hnext hf⟩, hp⟩, fun hf => (hred hf).2⟩

/-- A tree stays balanced when its root is blackened. -/
theorem Balanced.paint_black {t : Shape K T} {n : Nat} (h : Balanced t n) : ∃ m, Balanced (paint .black t) m := by
  cases t with
  | nil => exact ⟨n, h⟩
  | node a l r =>
    obtain ⟨-, m, -, hl, hr⟩ := h
    exact ⟨m + 1, balanced_black rfl hl hr⟩

@[simp] theorem rootColor_paint_black (t : Shape K T) : rootColor (paint .black t) = .black := by
  cases t <;> rfl

/-- A red root that is blackened. -/
theorem Balanced.blacken {t : Shape K T} {n : Nat} (h : Balanced t n) (hred : rootColor t = .red) : Balanced (paint .black t) (n + 1) := by
  cases t with
  | nil => cases hred
  | node a l r =>
    obtain ⟨-, m, rfl, hl, hr⟩ := h
    have hc : a.color = .red := hred
    rw [hc]
    exact balanced_black rfl hl hr

/-! ## The rounds -/

section

variable {f g : Frame (Label K T)} {path : Path K T} {t : Shape K T} {n : Nat}

/-- The frames of a round: the parent is red, so the grandparent is black and the parent's sibling is not red. -/
theorem PathBalanced.round (hp : PathBalanced n (f :: g :: path)) (hf : f.label.color = .red) :
    Balanced f.sibling n ∧ rootColor f.sibling = .black ∧ g.label.color = .black ∧ Balanced g.sibling n ∧
      PathBalanced (n + 1) path := by
  obtain ⟨hs, hred, hu, -, hp⟩ := hp
  obtain ⟨hsib, hg⟩ := hred hf
  have hg : g.label.color = .black := hg
  rw [hf] at hu hp
  rw [hg] at hp
  exact ⟨hs, hsib, hg, hu, hp⟩

/-- The round of a red uncle. The grandparent becomes red, and what is below it gets another black node. -/
theorem recolored_balanced (hp : PathBalanced n (f :: g :: path)) (ht : Balanced t n) (hf : f.label.color = .red)
    (hu : rootColor g.sibling = .red) :
    Balanced (paint .red (recolored f g t)) (n + 1) ∧ Balanced (recolored f g t) (n + 2) := by
  obtain ⟨hs, -, hg, hgs, -⟩ := hp.round hf
  have huncle := hgs.blacken hu
  have hparent : Balanced (paint .black (f.fill t)) (n + 1) := by
    cases f with
    | left a r => exact balanced_black rfl ht hs
    | right l a => exact balanced_black rfl hs ht
  cases g with
  | left b r =>
    have hb : b.color = .black := hg
    exact ⟨balanced_red rfl hparent huncle (by simp) (by simp), balanced_black hb hparent huncle⟩
  | right l b =>
    have hb : b.color = .black := hg
    exact ⟨balanced_red rfl huncle hparent (by simp) (by simp), balanced_black hb huncle hparent⟩

end

section

variable {ga fa : Label K T} {gs fs t : Shape K T} {n : Nat}

/-- A left rotation, of the sibling `fs` and the uncle `gs`. -/
theorem turnedLeft_balanced (hgs : Balanced gs n) (hfs : Balanced fs n) (ht : Balanced t n) (hg : rootColor gs = .black)
    (hf : rootColor fs = .black) : Balanced (turnedLeft ga fa gs fs t) (n + 1) :=
  balanced_black rfl (balanced_red rfl hgs hfs hg hf) ht

theorem turnedRight_balanced (hgs : Balanced gs n) (hfs : Balanced fs n) (ht : Balanced t n) (hg : rootColor gs = .black)
    (hf : rootColor fs = .black) : Balanced (turnedRight ga fa gs fs t) (n + 1) :=
  balanced_black rfl ht (balanced_red rfl hfs hgs hf hg)

/-- Two rotations of a red node, whose children are not red. -/
theorem turnedTwice_balanced (hgs : Balanced gs n) (hfs : Balanced fs n) (ht : Balanced t n) (hg : rootColor gs = .black)
    (hf : rootColor fs = .black) (hred : rootColor t = .red) : Balanced (turnedTwice ga fa gs fs t) (n + 1) := by
  cases t with
  | nil => cases hred
  | node x l r =>
    have hx : x.color = .red := hred
    obtain ⟨hlr, m, hm, hl, hr⟩ := ht
    obtain rfl : n = m := by simpa [hx, Color.blacks] using hm
    exact balanced_black rfl (balanced_red rfl hfs hl hf (hlr hx).1) (balanced_red rfl hr hgs (hlr hx).2 hg)

end

/-! ## The fix-up -/

/-- A fix-up whose double rotations are of red nodes ends in a balanced tree. -/
theorem fixup_balanced {path : Path K T} {t : Shape K T} {n : Nat} (hp : PathBalanced n path) (ht : Balanced t n) (hb : BlackTop path)
    (hq : ∀ q ∈ rotations (rootColor t) path, q.keepsColors = true) : ∃ m, Balanced (fixup path t) m := by
  induction path, t using fixup.induct generalizing n with
  | case1 t => exact ⟨n, ht⟩
  | case2 f t =>
    have hf : f.label.color = .black := hb
    exact balanced_plug hp ht fun h => by simp [topColor, hf] at h
  | case3 f g path t hf =>
    rw [fixup_of_black _ _ hf]
    exact balanced_plug hp ht fun h => by simp [topColor, hf] at h
  | case4 f g path t hf hu hnil =>
    have hfix : fixup (f :: g :: path) t = recolored f g t := by cases f <;> cases g <;> rw [fixup, if_neg hf, if_pos hu, if_pos hnil]
    rw [hfix]
    exact ⟨_, (recolored_balanced hp ht (Color.eq_red hf) hu).2⟩
  | case5 f g path t hf hu hnil ih =>
    have hfix : fixup (f :: g :: path) t = fixup path (paint .red (recolored f g t)) := by
      cases f <;> cases g <;> rw [fixup, if_neg hf, if_pos hu, if_neg hnil]
    have hcol : rootColor (paint .red (recolored f g t)) = .red := by cases g <;> rfl
    obtain ⟨-, -, -, -, habove⟩ := hp.round (Color.eq_red hf)
    rw [rotations_red _ path hf hu] at hq
    rw [hfix]
    exact ih habove (recolored_balanced hp ht (Color.eq_red hf) hu).1 hb.tail.tail (by rwa [hcol])
  | case6 path t gl ga fl fa hf hu ih =>
    obtain ⟨hs, hsib, -, hgs, habove⟩ := hp.round (Color.eq_red hf)
    rw [rotations_single _ path hf hu rfl] at hq
    rw [fixup, if_neg hf, if_neg hu]
    exact ih habove (turnedLeft_balanced hgs hs ht (Color.eq_black hu) hsib) hb.tail.tail
      fun q hq' => hq q (List.mem_append_right _ hq')
  | case7 path t ga gr fa fr hf hu ih =>
    obtain ⟨hs, hsib, -, hgs, habove⟩ := hp.round (Color.eq_red hf)
    rw [rotations_single _ path hf hu rfl] at hq
    rw [fixup, if_neg hf, if_neg hu]
    exact ih habove (turnedRight_balanced hgs hs ht (Color.eq_black hu) hsib) hb.tail.tail
      fun q hq' => hq q (List.mem_append_right _ hq')
  | case8 path t ga gr fl fa hf hu =>
    obtain ⟨hs, hsib, -, hgs, habove⟩ := hp.round (Color.eq_red hf)
    have hred : rootColor t = .red := by
      have := hq _ (rotations_rotate _ path hf hu)
      simpa [Rotation.keepsColors, Rotation.relinks, side] using And.right (by simpa [Rotation.keepsColors, side] using this)
    rw [fixup, if_neg hf, if_neg hu]
    exact balanced_plug habove (turnedTwice_balanced hgs hs ht (Color.eq_black hu) hsib hred) fun _ => by
      cases t with
      | nil => cases hred
      | node x l r => rfl
  | case9 path t gl ga fa fr hf hu =>
    have := hq _ (rotations_rotate _ path hf hu)
    simp [Rotation.keepsColors, Rotation.relinks, side] at this

/-! ## What balance is for -/

/-- No red node has a red child. -/
def NoRedRed : Shape K T → Prop
  | .nil => True
  | .node a l r => (a.color = .red → rootColor l = .black ∧ rootColor r = .black) ∧ NoRedRed l ∧ NoRedRed r

/-- The numbers of black nodes on the paths to the missing children. -/
def blackCounts : Shape K T → List Nat
  | .nil => [0]
  | .node a l r => (blackCounts l ++ blackCounts r).map (· + a.color.blacks)

theorem exists_mem_blackCounts (t : Shape K T) : ∃ c, c ∈ blackCounts t := by
  induction t with
  | nil => exact ⟨0, List.mem_singleton_self 0⟩
  | node a l r ihl _ =>
    obtain ⟨c, hc⟩ := ihl
    exact ⟨c + a.color.blacks, List.mem_map.mpr ⟨c, List.mem_append_left _ hc, rfl⟩⟩

/-- All paths have the same number of black nodes in one way only. -/
theorem counts_unique {t : Shape K T} {m n : Nat} (hm : ∀ c ∈ blackCounts t, c = m) (hn : ∀ c ∈ blackCounts t, c = n) : m = n := by
  obtain ⟨c, hc⟩ := exists_mem_blackCounts t
  exact (hm c hc).symm.trans (hn c hc)

theorem Balanced.noRedRed {t : Shape K T} {n : Nat} (h : Balanced t n) : NoRedRed t := by
  induction t generalizing n with
  | nil => trivial
  | node a l r ihl ihr =>
    obtain ⟨hred, m, -, hl, hr⟩ := h
    exact ⟨hred, ihl hl, ihr hr⟩

theorem Balanced.blackCounts {t : Shape K T} {n : Nat} (h : Balanced t n) : ∀ c ∈ blackCounts t, c = n := by
  induction t generalizing n with
  | nil =>
    intro c hc
    rw [List.mem_singleton.mp hc, h]
  | node a l r ihl ihr =>
    obtain ⟨-, m, rfl, hl, hr⟩ := h
    intro c hc
    obtain ⟨d, hd, rfl⟩ := List.mem_map.mp hc
    rcases List.mem_append.mp hd with hd | hd
    · rw [ihl hl d hd]
    · rw [ihr hr d hd]

/-- Balance is what it says of the red nodes and of the black ones. -/
theorem balanced_iff {t : Shape K T} {n : Nat} : Balanced t n ↔ NoRedRed t ∧ ∀ c ∈ blackCounts t, c = n := by
  refine ⟨fun h => ⟨h.noRedRed, h.blackCounts⟩, ?_⟩
  rintro ⟨hred, hcounts⟩
  induction t generalizing n with
  | nil => exact (hcounts 0 (List.mem_singleton_self 0)).symm
  | node a l r ihl ihr =>
    obtain ⟨hcol, hredl, hredr⟩ := hred
    have hall : ∀ d ∈ RbTree.blackCounts l ++ RbTree.blackCounts r, d + a.color.blacks = n := fun d hd =>
      hcounts _ (List.mem_map_of_mem hd)
    obtain ⟨m, hm⟩ := exists_mem_blackCounts l
    have hn := hall m (List.mem_append_left _ hm)
    refine ⟨hcol, m, hn.symm, ihl hredl fun d hd => ?_, ihr hredr fun d hd => ?_⟩
    · have := hall d (List.mem_append_left _ hd)
      omega
    · have := hall d (List.mem_append_right _ hd)
      omega

/-- A tree has one black height. -/
theorem Balanced.unique {t : Shape K T} {m n : Nat} (hm : Balanced t m) (hn : Balanced t n) : m = n :=
  counts_unique hm.blackCounts hn.blackCounts

/-- A path from the root has at most one red node for each black one, and one more where the root is red. -/
theorem Balanced.height_le {t : Shape K T} {n : Nat} (h : Balanced t n) :
    t.height ≤ 2 * n + 1 ∧ (rootColor t = .black → t.height ≤ 2 * n) := by
  induction t generalizing n with
  | nil => simp [height]
  | node a l r ihl ihr =>
    obtain ⟨hred, m, rfl, hl, hr⟩ := h
    obtain ⟨hhl, hhl'⟩ := ihl hl
    obtain ⟨hhr, hhr'⟩ := ihr hr
    simp only [height, rootColor_node]
    cases hc : a.color with
    | red =>
      have hl2 := hhl' (hred hc).1
      have hr2 := hhr' (hred hc).2
      simp only [Color.blacks]
      exact ⟨by omega, fun h => by cases h⟩
    | black =>
      simp only [Color.blacks]
      exact ⟨by omega, fun _ => by omega⟩

/-- Every path has its black nodes. -/
theorem Balanced.numNodes_ge {t : Shape K T} {n : Nat} (h : Balanced t n) : 2 ^ n ≤ t.numNodes + 1 := by
  induction t generalizing n with
  | nil =>
    rw [h]
    simp
  | node a l r ihl ihr =>
    obtain ⟨-, m, rfl, hl, hr⟩ := h
    have hsl := ihl hl
    have hsr := ihr hr
    simp only [numNodes]
    cases a.color with
    | red =>
      simp only [Color.blacks, Nat.add_zero]
      omega
    | black =>
      simp only [Color.blacks, Nat.pow_succ]
      omega

end MiriWeirdness.RbTree
