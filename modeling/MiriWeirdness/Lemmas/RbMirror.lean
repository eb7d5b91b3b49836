import MiriWeirdness.Lemmas.RbRotate

/-!
# The mirror image of a heap

A right rotation does on a heap what a left rotation does on its mirror image, up to the last write of the left rotation: the child
pointer of the node above. What both do is compared here on any heap whose child and parent links agree, whether it holds one tree,
several, or a cycle of nodes.
-/

namespace MiriWeirdness.RbTree

open BinaryTree

variable {K T : Type}

/-! ## Heaps whose links agree -/

/-- The child and the parent links of a heap agree: a child has the node as its parent, a parent has the node as a child, and no node
is the child of another on both sides. -/
structure LinksAgree (h : Heap K T) : Prop where
  children : ∀ p n c, h.read p = some n → n.left = some c ∨ n.right = some c → ∃ m, h.read c = some m ∧ m.parent = some p
  parents : ∀ c m p, h.read c = some m → m.parent = some p → ∃ n, h.read p = some n ∧ (n.left = some c ∨ n.right = some c)
  apart : ∀ p n c, h.read p = some n → n.left = some c → n.right ≠ some c

/-- A rotation returns, it leaves a heap whose links agree, and every tree that the heap holds is a tree after it with the same labels
in order. -/
def KeepsTrees (h : Heap K T) (res : Except Fault (Heap K T)) : Prop :=
  ∃ h', res = .ok h' ∧ LinksAgree h' ∧ ∀ t, Focus h [] t → ∃ t', Focus h' [] t' ∧ t'.inorder = t.inorder

/-- The links of a heap agree if it holds one tree and nothing else. -/
theorem Focus.linksAgree {h : Heap K T} {t : Shape K T} (hf : Focus h [] t) (hall : ∀ q < h.size, q ∈ ptrs t.inorder) :
    LinksAgree h := by
  have hat : ∀ q n, h.read q = some n → ∃ path a l r, a.ptr = q ∧ n = a.cell (top path) (root l) (root r) ∧
      Focus h path (.node a l r) := by
    intro q n hq
    obtain ⟨path, a, l, r, rfl, -, hfa⟩ := hf.at_mem (hall q (Arena.lt_size_of_read hq))
    exact ⟨path, a, l, r, rfl, Option.some.inj (hq.symm.trans hfa.read), hfa⟩
  refine ⟨?_, ?_, ?_⟩
  · intro q n c hq hc
    obtain ⟨path, a, l, r, rfl, rfl, hfa⟩ := hat q n hq
    rcases hc with hc | hc
    · exact hfa.below.2.1.read_root hc
    · exact hfa.below.2.2.read_root hc
  · intro c m q hc hm
    obtain ⟨path, a, l, r, rfl, rfl, hfa⟩ := hat c m hc
    exact hfa.above.read_top hm
  · intro q n c hq hleft hright
    obtain ⟨path, a, l, r, rfl, rfl, hfa⟩ := hat q n hq
    have hd := hfa.nodup
    have hcl := mem_ptrs_of_root hleft
    have hcr := mem_ptrs_of_root hright
    rw [inorder_node, ptrs_append, ptrs_cons, List.append_assoc, List.nodup_append] at hd
    exact hd.2.2 c hcl c (by simp [hcr]) rfl

/-! ## The mirror image -/

/-- The mirror image of a node: its children change places. -/
def TreeNode.mirror (n : TreeNode K T) : TreeNode K T := { n with left := n.right, right := n.left }

@[simp] theorem TreeNode.mirror_left (n : TreeNode K T) : n.mirror.left = n.right := rfl
@[simp] theorem TreeNode.mirror_right (n : TreeNode K T) : n.mirror.right = n.left := rfl
@[simp] theorem TreeNode.mirror_parent (n : TreeNode K T) : n.mirror.parent = n.parent := rfl
@[simp] theorem TreeNode.mirror_mirror (n : TreeNode K T) : n.mirror.mirror = n := rfl

/-- The mirror image of a heap. -/
def Heap.mirror (h : Heap K T) : Heap K T := h.map TreeNode.mirror

@[simp] theorem Heap.read_mirror (h : Heap K T) (p : Ptr) : h.mirror.read p = (h.read p).map TreeNode.mirror :=
  Arena.read_map _ _ _

@[simp] theorem Heap.mirror_mirror (h : Heap K T) : h.mirror.mirror = h :=
  Arena.map_map_of_involutive TreeNode.mirror_mirror h

/-- A read through a pointer in the mirror image. -/
theorem Heap.node_mirror (h : Heap K T) (p : Ptr) : h.mirror.node p = (h.node p).map TreeNode.mirror := by
  unfold Heap.node
  rw [Heap.read_mirror]
  cases h.read p <;> rfl

/-- A write in the mirror image that does there what the write does here. -/
theorem Heap.update_mirror {f g : TreeNode K T → TreeNode K T} (hfg : ∀ n, (f n).mirror = g n.mirror) (h : Heap K T) (p : Ptr) :
    h.mirror.update p g = (h.update p f).map Heap.mirror := by
  unfold Heap.update
  rw [Heap.read_mirror]
  cases h.read p with
  | none => rfl
  | some n => exact congrArg Except.ok (Arena.map_modify hfg h p).symm

theorem Heap.update_mirror_eq {h : Heap K T} {p : Ptr} {n : TreeNode K T} {f g : TreeNode K T → TreeNode K T}
    (hfg : ∀ n, (f n).mirror = g n.mirror) (hp : h.read p = some n) : h.mirror.update p g = .ok (Heap.mirror (h.modify p f)) := by
  rw [Heap.update_mirror hfg, Heap.update_eq _ hp]
  rfl

theorem LinksAgree.mirror {h : Heap K T} (hl : LinksAgree h) : LinksAgree h.mirror := by
  refine ⟨?_, ?_, ?_⟩
  · intro p n c hp hc
    obtain ⟨m, hm, rfl⟩ := Option.map_eq_some_iff.mp ((Heap.read_mirror h p).symm.trans hp)
    obtain ⟨k, hk, hkp⟩ := hl.children p m c hm hc.symm
    exact ⟨k.mirror, by rw [Heap.read_mirror, hk]; rfl, hkp⟩
  · intro c m p hc hp
    obtain ⟨k, hk, rfl⟩ := Option.map_eq_some_iff.mp ((Heap.read_mirror h c).symm.trans hc)
    obtain ⟨n, hn, hnc⟩ := hl.parents c k p hk hp
    exact ⟨n.mirror, by rw [Heap.read_mirror, hn]; rfl, hnc.symm⟩
  · intro p n c hp hleft hright
    obtain ⟨m, hm, rfl⟩ := Option.map_eq_some_iff.mp ((Heap.read_mirror h p).symm.trans hp)
    exact hl.apart p m c hm hright hleft

@[simp] theorem root_mirror (t : Shape K T) : root t.mirror = root t := by
  cases t <;> rfl

theorem Holds.mirror {h : Heap K T} {parent : Option Ptr} {t : Shape K T} (ht : Holds h parent t) :
    Holds h.mirror parent t.mirror := by
  induction t generalizing parent with
  | nil => trivial
  | node a l r ihl ihr =>
    obtain ⟨ha, hl, hr⟩ := ht
    refine ⟨?_, ihr hr, ihl hl⟩
    rw [Heap.read_mirror, ha, root_mirror, root_mirror]
    rfl

/-- The mirror image of a heap holds the mirror image of its tree. -/
theorem Focus.mirror {h : Heap K T} {t : Shape K T} (hf : Focus h [] t) : Focus h.mirror [] t.mirror := by
  refine ⟨trivial, hf.below.mirror, ?_⟩
  have hd := hf.distinct
  rw [plug_nil] at hd ⊢
  rw [inorder_mirror, ptrs, List.map_reverse]
  exact List.nodup_reverse.mpr hd

/-- A rotation that keeps the trees of a heap does so seen in the mirror. -/
theorem KeepsTrees.mirror {h : Heap K T} {res : Except Fault (Heap K T)} (hk : KeepsTrees h res) :
    KeepsTrees h.mirror (res.map Heap.mirror) := by
  obtain ⟨h', rfl, hl, ht⟩ := hk
  refine ⟨h'.mirror, rfl, hl.mirror, fun t hf => ?_⟩
  have hf' := hf.mirror
  rw [Heap.mirror_mirror] at hf'
  obtain ⟨t', hf'', hin⟩ := ht t.mirror hf'
  refine ⟨t'.mirror, hf''.mirror, ?_⟩
  rw [inorder_mirror, hin, inorder_mirror, List.reverse_reverse]

/-! ## Both rotations -/

/-- The inner child is adopted in the mirror image as it is here. -/
theorem Heap.adopt_mirror (h : Heap K T) (child parent : Option Ptr) :
    h.mirror.adopt child parent = (h.adopt child parent).map Heap.mirror := by
  cases child with
  | none => rfl
  | some a => exact Heap.update_mirror (f := fun n => { n with parent := parent }) (fun _ => rfl) h a

/-- A write that returns found a node. -/
theorem Heap.read_of_update {h h' : Heap K T} {p : Ptr} {f : TreeNode K T → TreeNode K T} (hu : h.update p f = .ok h') :
    ∃ n, h.read p = some n := by
  unfold Heap.update at hu
  cases hp : h.read p with
  | none => simp [hp] at hu
  | some n => exact ⟨n, rfl⟩

/-- An adoption that returns: the cells after it. -/
theorem Heap.read_adopt {h h' : Heap K T} {child parent : Option Ptr} (ha : h.adopt child parent = .ok h') (q : Ptr) :
    h'.read q = if child = some q then (h.read q).map fun n => { n with parent := parent } else h.read q := by
  obtain ⟨h'', ha', -, hr⟩ := Heap.adopt_reads h child parent fun a hc => by
    subst hc
    exact Heap.read_of_update ha
  obtain rfl : h' = h'' := Except.ok.inj (ha.symm.trans ha')
  exact hr q

/-- A node above always gets another child: the heap is not the same after it. -/
theorem Heap.relinkAbove_ne {h : Heap K T} {g p x : Ptr} (hne : x ≠ p) : h.relinkAbove (some g) p x ≠ .ok h := by
  intro heq
  unfold Heap.relinkAbove Heap.node at heq
  cases hg : h.read g with
  | none => simp [hg] at heq
  | some n =>
    have hread : ∀ f : TreeNode K T → TreeNode K T, h.update g f = .ok h → f n = n := by
      intro f hf
      rw [Heap.update_eq f hg] at hf
      have hr := Arena.read_modify h g g f
      rw [Except.ok.inj hf, if_pos rfl, hg] at hr
      exact (Option.some.inj hr).symm
    simp only [hg, ok_bind, TreeNode.childDir] at heq
    by_cases hleft : n.left = some p
    · simp only [hleft, if_true, ok_bind] at heq
      have hn := congrArg TreeNode.left (hread _ heq)
      exact hne (Option.some.inj (hn.trans hleft))
    · by_cases hright : n.right = some p
      · rw [if_neg hleft, if_pos hright, ok_bind, if_neg (by rintro ⟨⟩)] at heq
        have hn := congrArg TreeNode.right (hread _ heq)
        exact hne (Option.some.inj (hn.trans hright))
      · simp [hleft, hright] at heq

/-- A right rotation on any heap in which the inner child is adopted: the rotated node keeps its parent pointer up to the last write,
whether it is its own inner child or not, and three writes follow. -/
theorem rotRightPar_of_adopt {h h₁ h₂ : Heap K T} {x p : Ptr} {nx : TreeNode K T} (hx : h.read x = some nx) (hxp : nx.parent = some p)
    (hh₁ : h₁ = h.modify x fun n => { n with right := n.parent }) (hadopt : h₁.adopt nx.right (some p) = .ok h₂) :
    (∃ nx₂, h₂.read x = some nx₂ ∧ nx₂.parent = some p ∧ nx₂.right = some p) ∧
      ∀ np₂, h₂.read p = some np₂ →
        rotRightPar h x = .ok (((h₂.modify p fun n => { n with left := nx.right }).modify p fun n => { n with parent := some x }).modify x
          fun n => { n with parent := np₂.parent }) := by
  have hx₁ : h₁.read x = some { nx with right := some p } := by
    rw [hh₁, Arena.read_modify, if_pos rfl, hx, ← hxp]
    rfl
  obtain ⟨nx₂, hx₂, hxp₂, hxr₂⟩ : ∃ nx₂, h₂.read x = some nx₂ ∧ nx₂.parent = some p ∧ nx₂.right = some p := by
    rw [Heap.read_adopt hadopt, hx₁]
    split
    · exact ⟨_, rfl, rfl, rfl⟩
    · exact ⟨_, rfl, hxp, rfl⟩
  refine ⟨⟨nx₂, hx₂, hxp₂, hxr₂⟩, fun np₂ hp₂ => ?_⟩
  have hp₃ : (h₂.modify p fun n => { n with left := nx.right }).read p = some { np₂ with left := nx.right } := by
    rw [Arena.read_modify, if_pos rfl, hp₂]
    rfl
  obtain ⟨nx₄, hx₄⟩ : ∃ nx₄, ((h₂.modify p fun n => { n with left := nx.right }).modify p
      fun n => { n with parent := some x }).read x = some nx₄ := by
    rw [Arena.read_modify, Arena.read_modify, hx₂]
    split <;> exact ⟨_, rfl⟩
  simp only [rotRightPar, Heap.node_eq hx, Heap.update_eq _ hx, ← hh₁, ok_bind, Heap.node_eq hx₁, hxp, hadopt, Heap.node_eq hx₂, hxp₂,
    Heap.update_eq _ hp₂, Heap.node_eq hp₃, Heap.update_eq _ hp₃, Heap.update_eq _ hx₄]

/-- What a left rotation does in the mirror image of a heap on which a right rotation returns: its assertion fails, or it does the same
and relinks a node above, if there is one. -/
theorem rotLeftPar_mirror_cases {h h' : Heap K T} {x p : Ptr} {nx np : TreeNode K T} (hx : h.read x = some nx)
    (hxp : nx.parent = some p) (hp : h.read p = some np) (hr : rotRightPar h x = .ok h') :
    rotLeftPar h.mirror x = .error assertion ∨
      x ≠ p ∧ ∃ above, rotLeftPar h.mirror x = h'.mirror.relinkAbove above p x ∧ (above = none → np.parent = none) := by
  obtain ⟨h₁, hh₁⟩ : ∃ h₁ : Heap K T, h₁ = h.modify x fun n => { n with right := n.parent } := ⟨_, rfl⟩
  have hx₁ : h₁.read x = some { nx with right := some p } := by
    rw [hh₁, Arena.read_modify, if_pos rfl, hx, ← hxp]
    rfl
  cases hadopt : h₁.adopt nx.right (some p) with
  | error f => simp [rotRightPar, Heap.node_eq hx, Heap.update_eq _ hx, ← hh₁, Heap.node_eq hx₁, hxp, hadopt] at hr
  | ok h₂ =>
    obtain ⟨⟨nx₂, hx₂, hxp₂, hxr₂⟩, hwrites⟩ := rotRightPar_of_adopt hx hxp hh₁ hadopt
    have hr₂ := Heap.read_adopt hadopt
    obtain ⟨np₂, hp₂, hself, hparent⟩ : ∃ np₂, h₂.read p = some np₂ ∧ (np₂.right ≠ some x → x ≠ p) ∧
        (np₂.parent = none → np.parent = none) := by
      by_cases hpx : p = x
      · subst hpx
        refine ⟨nx₂, hx₂, fun hright => absurd hxr₂ hright, fun hnone => ?_⟩
        rw [hxp₂] at hnone
        cases hnone
      · have hp₁ : h₁.read p = some np := by rw [hh₁, Arena.read_modify, if_neg hpx, hp]
        rw [hr₂, hp₁]
        split
        · exact ⟨_, rfl, fun _ => Ne.symm hpx, fun hnone => by cases hnone⟩
        · exact ⟨np, rfl, fun _ => Ne.symm hpx, id⟩
    obtain rfl := Except.ok.inj ((hwrites np₂ hp₂).symm.trans hr)
    -- the same writes in the mirror image
    obtain ⟨h₃, hh₃⟩ : ∃ h₃ : Heap K T, h₃ = h₂.modify p fun n => { n with left := nx.right } := ⟨_, rfl⟩
    obtain ⟨h₄, hh₄⟩ : ∃ h₄ : Heap K T, h₄ = h₃.modify p fun n => { n with parent := some x } := ⟨_, rfl⟩
    have hp₃ : h₃.read p = some { np₂ with left := nx.right } := by
      rw [hh₃, Arena.read_modify, if_pos rfl, hp₂]
      rfl
    obtain ⟨nx₄, hx₄⟩ : ∃ nx₄, h₄.read x = some nx₄ := by
      rw [hh₄, hh₃, Arena.read_modify, Arena.read_modify, hx₂]
      split <;> exact ⟨_, rfl⟩
    have hm₁ : h.mirror.update x (fun n => { n with left := n.parent }) = .ok h₁.mirror := by
      rw [hh₁]
      exact Heap.update_mirror_eq (fun _ => rfl) hx
    have hm₃ : h₂.mirror.update p (fun n => { n with right := nx.right }) = .ok h₃.mirror := by
      rw [hh₃]
      exact Heap.update_mirror_eq (fun _ => rfl) hp₂
    have hm₄ : h₃.mirror.update p (fun n => { n with parent := some x }) = .ok h₄.mirror := by
      rw [hh₄]
      exact Heap.update_mirror_eq (fun _ => rfl) hp₃
    obtain ⟨h₅, hh₅⟩ : ∃ h₅ : Heap K T, h₅ = h₄.modify x fun n => { n with parent := np₂.parent } := ⟨_, rfl⟩
    have hm₅ : h₄.mirror.update x (fun n => { n with parent := np₂.parent }) = .ok h₅.mirror := by
      rw [hh₅]
      exact Heap.update_mirror_eq (fun _ => rfl) hx₄
    rw [← hh₃, ← hh₄, ← hh₅]
    simp only [rotLeftPar, Heap.node_mirror, Heap.node_eq hx, Except.map, ok_bind, hm₁, Heap.node_eq hx₁, Heap.adopt_mirror,
      TreeNode.mirror_left, TreeNode.mirror_parent, hxp, hadopt, Heap.node_eq hx₂, hxp₂, Heap.node_eq hp₂, TreeNode.childDir,
      TreeNode.mirror_right]
    by_cases hright : np₂.right = some x
    · simp [hright]
    · by_cases hleft : np₂.left = some x
      · refine Or.inr ⟨hself hright, np₂.parent, ?_, hparent⟩
        simp only [hright, hleft, if_false, if_true, ok_bind, hm₃, Heap.node_mirror, Heap.node_eq hp₃, Except.map,
          TreeNode.mirror_parent, hm₄, hm₅]
      · simp [hright, hleft]

section

variable {h : Heap K T} {x p : Ptr} {nx np : TreeNode K T} (hl : LinksAgree h) (hx : h.read x = some nx) (hxp : nx.parent = some p)
  (hp : h.read p = some np)

include hl hx hxp hp

/-- A right rotation of a node with a parent always returns. -/
theorem rotRightPar_ok : ∃ h', rotRightPar h x = .ok h' := by
  obtain ⟨h₁, hh₁⟩ : ∃ h₁ : Heap K T, h₁ = h.modify x fun n => { n with right := n.parent } := ⟨_, rfl⟩
  have hread₁ : ∀ q, (∃ n, h.read q = some n) → ∃ n, h₁.read q = some n := by
    rintro q ⟨n, hn⟩
    rw [hh₁, Arena.read_modify, hn]
    split <;> exact ⟨_, rfl⟩
  obtain ⟨h₂, hadopt, -, hr₂⟩ := Heap.adopt_reads h₁ nx.right (some p) fun a ha => by
    obtain ⟨m, hm, -⟩ := hl.children x nx a hx (Or.inr ha)
    exact hread₁ a ⟨m, hm⟩
  obtain ⟨-, hwrites⟩ := rotRightPar_of_adopt hx hxp hh₁ hadopt
  obtain ⟨np₁, hp₁⟩ := hread₁ p ⟨np, hp⟩
  obtain ⟨np₂, hp₂⟩ : ∃ np₂, h₂.read p = some np₂ := by
    rw [hr₂, hp₁]
    split <;> exact ⟨_, rfl⟩
  exact ⟨_, hwrites np₂ hp₂⟩

omit hl in
/-- A parent without a parent of its own is another node. -/
theorem ne_of_parentless (hpp : np.parent = none) : x ≠ p := by
  rintro rfl
  obtain rfl : nx = np := Option.some.inj (hx.symm.trans hp)
  rw [hxp] at hpp
  cases hpp

/-- A child of a node whose parent has no parent is a third node. -/
theorem child_of_parentless (hpp : np.parent = none) {a : Ptr} (ha : nx.left = some a ∨ nx.right = some a) :
    a ≠ x ∧ a ≠ p ∧ ∃ na, h.read a = some na ∧ na.parent = some x := by
  have hxne := ne_of_parentless hx hxp hp hpp
  obtain ⟨na, hna, hap⟩ := hl.children x nx a hx ha
  refine ⟨?_, ?_, na, hna, hap⟩
  · rintro rfl
    obtain rfl : nx = na := Option.some.inj (hx.symm.trans hna)
    exact hxne (Option.some.inj (hap.symm.trans hxp))
  · rintro rfl
    obtain rfl : np = na := Option.some.inj (hp.symm.trans hna)
    rw [hap] at hpp
    cases hpp

variable (hpp : np.parent = none)

include hpp

/-- Below a root, a right rotation does to the cells what it should. -/
theorem rotRightPar_parentless : ∃ h', rotRightPar h x = .ok h' ∧ RotatesRight h h' x p nx np :=
  rotRightPar_reads hx hp hxp (ne_of_parentless hx hxp hp hpp) fun _ ha => by
    obtain ⟨hax, hap, na, hna, -⟩ := child_of_parentless hl hx hxp hp hpp (Or.inr ha)
    exact ⟨hax, hap, na, hna⟩

variable (hleft : np.left = some x)

include hleft

/-- Below a root, a right rotation is the mirror image of a left one. -/
theorem rotRightPar_mirror : (rotRightPar h x).map Heap.mirror = rotLeftPar h.mirror x := by
  have hright : np.right ≠ some x := hl.apart p np x hp hleft
  have hxne := ne_of_parentless hx hxp hp hpp
  have hmx : h.mirror.read x = some nx.mirror := by rw [Heap.read_mirror, hx]; rfl
  have hmp : h.mirror.read p = some np.mirror := by rw [Heap.read_mirror, hp]; rfl
  obtain ⟨h', hr, hrot⟩ := rotRightPar_parentless hl hx hxp hp hpp
  obtain ⟨h'', hl', hrot'⟩ := rotLeftPar_reads hmx hmp hxp hright hleft hxne
    (fun a ha => by
      obtain ⟨hax, hap, na, hna, -⟩ := child_of_parentless hl hx hxp hp hpp (Or.inr ha)
      exact ⟨hax, hap, na.mirror, by rw [Heap.read_mirror, hna]; rfl⟩)
    (fun g hg => by
      rw [TreeNode.mirror_parent, hpp] at hg
      cases hg)
  rw [hr, hl']
  refine congrArg Except.ok (Arena.ext_read fun q => ?_)
  rw [Heap.read_mirror]
  by_cases hqx : q = x
  · rw [hqx, hrot.this, hrot'.this]
    rfl
  by_cases hqp : q = p
  · rw [hqp, hrot.parent, hrot'.parent]
    rfl
  by_cases hqa : nx.right = some q
  · obtain ⟨-, -, na, hna, -⟩ := child_of_parentless hl hx hxp hp hpp (Or.inr hqa)
    rw [hrot.inner q na hqa hna, hrot'.inner q na.mirror hqa (by rw [Heap.read_mirror, hna]; rfl)]
    rfl
  · rw [hrot.rest q hqx hqp hqa, hrot'.rest q hqx hqp hqa (by rw [TreeNode.mirror_parent, hpp]; rintro ⟨⟩), Heap.read_mirror]

omit hl hx hxp hp hpp hleft in
/-- The cells after a right rotation: the two that turn, the inner child, and the others. -/
theorem RotatesRight.cases {h' : Heap K T} (hrot : RotatesRight h h' x p nx np) {q : Ptr} {n' : TreeNode K T}
    (hq : h'.read q = some n') :
    (q = x ∧ n' = { nx with parent := np.parent, right := some p }) ∨
      (q = p ∧ n' = { np with parent := some x, left := nx.right }) ∨
      (q ≠ x ∧ q ≠ p ∧ nx.right = some q ∧ ∀ na, h.read q = some na → n' = { na with parent := some p }) ∨
      (q ≠ x ∧ q ≠ p ∧ nx.right ≠ some q ∧ h.read q = some n') := by
  by_cases hqx : q = x
  · subst hqx
    exact Or.inl ⟨rfl, Option.some.inj (hq.symm.trans hrot.this)⟩
  by_cases hqp : q = p
  · subst hqp
    exact Or.inr (Or.inl ⟨rfl, Option.some.inj (hq.symm.trans hrot.parent)⟩)
  by_cases hqa : nx.right = some q
  · exact Or.inr (Or.inr (Or.inl ⟨hqx, hqp, hqa, fun na hna => Option.some.inj (hq.symm.trans (hrot.inner q na hqa hna))⟩))
  · exact Or.inr (Or.inr (Or.inr ⟨hqx, hqp, hqa, (hrot.rest q hqx hqp hqa).symm.trans hq⟩))

/-- Below a root, a right rotation leaves links that agree. -/
theorem RotatesRight.linksAgree {h' : Heap K T} (hrot : RotatesRight h h' x p nx np) : LinksAgree h' := by
  have hxne := ne_of_parentless hx hxp hp hpp
  -- a node of which the parent is neither `x` nor `p`, and the others that are not written
  have hrest : ∀ c m q, h.read c = some m → m.parent = some q → c ≠ x → nx.right ≠ some c → h'.read c = some m := by
    intro c m q hc hm hcx hca
    refine (hrot.rest c hcx ?_ hca).trans hc
    rintro rfl
    obtain rfl : np = m := Option.some.inj (hp.symm.trans hc)
    rw [hm] at hpp
    cases hpp
  have hxof : ∀ m q, h.read x = some m → m.parent = some q → q = p := by
    intro m q hm hq
    obtain rfl : nx = m := Option.some.inj (hx.symm.trans hm)
    exact Option.some.inj (hq.symm.trans hxp)
  have hinner : ∀ c m q, nx.right = some c → h.read c = some m → m.parent = some q → q = x := by
    intro c m q hc hm hq
    obtain ⟨-, -, na, hna, hnx⟩ := child_of_parentless hl hx hxp hp hpp (Or.inr hc)
    obtain rfl : m = na := Option.some.inj (hm.symm.trans hna)
    exact Option.some.inj (hq.symm.trans hnx)
  refine ⟨?_, ?_, ?_⟩
  · intro q n' c hq hc
    rcases hrot.cases hq with ⟨rfl, rfl⟩ | ⟨rfl, rfl⟩ | ⟨hqx, hqp, hqa, hn'⟩ | ⟨hqx, hqp, hqa, hn'⟩
    · rcases hc with hc | hc
      · obtain ⟨hcx, -, na, hna, hnp⟩ := child_of_parentless hl hx hxp hp hpp (Or.inl hc)
        exact ⟨na, hrest c na q hna hnp hcx (hl.apart q nx c hx hc), hnp⟩
      · obtain rfl : p = c := Option.some.inj hc
        exact ⟨_, hrot.parent, rfl⟩
    · rcases hc with hc | hc
      · obtain ⟨-, -, na, hna, -⟩ := child_of_parentless hl hx hxp hp hpp (Or.inr hc)
        exact ⟨_, hrot.inner c na hc hna, rfl⟩
      · obtain ⟨m, hm, hmp⟩ := hl.children q np c hp (Or.inr hc)
        refine ⟨m, hrest c m q hm hmp ?_ fun hca => hxne (hinner c m q hca hm hmp).symm, hmp⟩
        rintro rfl
        exact hl.apart q np c hp hleft hc
    · obtain ⟨-, -, na, hna, -⟩ := child_of_parentless hl hx hxp hp hpp (Or.inr hqa)
      obtain rfl := hn' na hna
      obtain ⟨m, hm, hmp⟩ := hl.children q na c hna hc
      refine ⟨m, hrest c m q hm hmp ?_ fun hca => hqx (hinner c m q hca hm hmp), hmp⟩
      rintro rfl
      exact hqp (hxof m q hm hmp)
    · obtain ⟨m, hm, hmp⟩ := hl.children q n' c hn' hc
      refine ⟨m, hrest c m q hm hmp ?_ fun hca => hqx (hinner c m q hca hm hmp), hmp⟩
      rintro rfl
      exact hqp (hxof m q hm hmp)
  · intro c m' q hc hq
    rcases hrot.cases hc with ⟨rfl, rfl⟩ | ⟨rfl, rfl⟩ | ⟨hcx, hcp, hca, hm'⟩ | ⟨hcx, hcp, hca, hm'⟩
    · rw [hpp] at hq
      cases hq
    · obtain rfl : x = q := Option.some.inj hq
      exact ⟨_, hrot.this, Or.inr rfl⟩
    · obtain ⟨-, -, na, hna, -⟩ := child_of_parentless hl hx hxp hp hpp (Or.inr hca)
      obtain rfl := hm' na hna
      obtain rfl : p = q := Option.some.inj hq
      exact ⟨_, hrot.parent, Or.inl hca⟩
    · obtain ⟨n, hn, hnc⟩ := hl.parents c m' q hm' hq
      by_cases hqx : q = x
      · subst hqx
        obtain rfl : nx = n := Option.some.inj (hx.symm.trans hn)
        exact ⟨_, hrot.this, Or.inl (hnc.resolve_right hca)⟩
      by_cases hqp : q = p
      · subst hqp
        obtain rfl : np = n := Option.some.inj (hp.symm.trans hn)
        refine ⟨_, hrot.parent, Or.inr (hnc.resolve_left fun hc => hcx ?_)⟩
        exact Option.some.inj (hc.symm.trans hleft)
      by_cases hqa : nx.right = some q
      · exact ⟨_, hrot.inner q n hqa hn, hnc⟩
      · exact ⟨n, (hrot.rest q hqx hqp hqa).trans hn, hnc⟩
  · intro q n' c hq hleft' hright'
    rcases hrot.cases hq with ⟨rfl, rfl⟩ | ⟨rfl, rfl⟩ | ⟨hqx, hqp, hqa, hn'⟩ | ⟨hqx, hqp, hqa, hn'⟩
    · obtain rfl : p = c := Option.some.inj hright'
      obtain ⟨-, hcp, -⟩ := child_of_parentless hl hx hxp hp hpp (Or.inl hleft')
      exact hcp rfl
    · obtain ⟨m, hm, hmp⟩ := hl.children q np c hp (Or.inr hright')
      exact hxne (hinner c m q hleft' hm hmp).symm
    · obtain ⟨-, -, na, hna, -⟩ := child_of_parentless hl hx hxp hp hpp (Or.inr hqa)
      obtain rfl := hn' na hna
      exact hl.apart q na c hna hleft' hright'
    · exact hl.apart q n' c hn' hleft' hright'

/-- Below a root, a right rotation turns the tree that holds the node. -/
theorem rotRightPar_turns {t : Shape K T} (hf : Focus h [] t) (hxt : x ∈ ptrs t.inorder) :
    ∃ h' t', rotRightPar h x = .ok h' ∧ Focus h' [] t' ∧ t'.inorder = t.inorder := by
  obtain ⟨path, a, l, r, rfl, rfl, hfa⟩ := hf.at_mem hxt
  obtain rfl : nx = _ := Option.some.inj (hx.symm.trans hfa.read)
  cases path with
  | nil => cases hxp
  | cons f path =>
    cases hxp
    have hfp := focus_cons_iff.mp hfa
    cases f with
    | left b s =>
      obtain rfl : np = _ := Option.some.inj (hp.symm.trans hfp.read)
      cases path with
      | cons g path => cases hpp
      | nil =>
        obtain ⟨h', hr, -, hf'⟩ := hfa.rotRightPar_root
        exact ⟨h', _, hr, hf', by simp [Frame.fill]⟩
    | right s b =>
      obtain rfl : np = _ := Option.some.inj (hp.symm.trans hfp.read)
      exact absurd rfl (hl.apart _ _ _ hp hleft)

omit hxp hpp in
/-- A tree without the node has none of the nodes that its rotation writes. -/
theorem not_mem_of_untouched {t : Shape K T} (hf : Focus h [] t) (hxt : x ∉ ptrs t.inorder) {q : Ptr} (hq : q ∈ ptrs t.inorder) :
    q ≠ x ∧ q ≠ p ∧ nx.right ≠ some q := by
  obtain ⟨path, a, l, r, rfl, rfl, hfa⟩ := hf.at_mem hq
  refine ⟨?_, ?_, ?_⟩
  · rintro rfl
    exact hxt hq
  · rintro rfl
    obtain rfl : np = _ := Option.some.inj (hp.symm.trans hfa.read)
    refine hxt ?_
    rw [inorder_plug]
    simp [mem_ptrs_of_root hleft]
  · intro ha
    obtain ⟨na, hna, hnx⟩ := hl.children x nx a.ptr hx (Or.inr ha)
    obtain rfl : na = _ := Option.some.inj (hna.symm.trans hfa.read)
    refine hxt ?_
    have hmem := mem_ptrs_of_top hnx
    rw [inorder_plug, ptrs_append, ptrs_append]
    rw [ptrs_append, List.mem_append] at hmem
    simp only [List.mem_append]
    rcases hmem with hmem | hmem
    · exact Or.inl (Or.inl hmem)
    · exact Or.inr hmem

/-- Below a root, a right rotation keeps the links and the trees. -/
theorem rotRightPar_keeps : KeepsTrees h (rotRightPar h x) := by
  obtain ⟨h', hr, hrot⟩ := rotRightPar_parentless hl hx hxp hp hpp
  refine ⟨h', hr, hrot.linksAgree hl hx hxp hp hpp hleft, fun t hf => ?_⟩
  by_cases hxt : x ∈ ptrs t.inorder
  · obtain ⟨h'', t', hr', hf', hin⟩ := rotRightPar_turns hl hx hxp hp hpp hleft hf hxt
    obtain rfl : h' = h'' := Except.ok.inj (hr.symm.trans hr')
    exact ⟨t', hf', hin⟩
  · refine ⟨t, ⟨trivial, hf.below.congr fun q hq => ?_, hf.distinct⟩, rfl⟩
    obtain ⟨hqx, hqp, hqa⟩ := not_mem_of_untouched hl hx hp hleft hf hxt hq
    exact hrot.rest q hqx hqp hqa

end

end MiriWeirdness.RbTree
