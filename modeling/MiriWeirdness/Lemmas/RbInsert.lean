import MiriWeirdness.Lemmas.RbRecolor

/-!
# An insert follows the fix-up

The trees that the pointers of a `RbTree` hold, how an insert changes them and what `get` finds in them. `grown` is the tree after an
insert; the insert ends there unless one of its rotations does not relink the node above.
-/

namespace MiriWeirdness.RbTree

open BinaryTree

variable {K T : Type}

/-- The pointers of the tree hold the shape. -/
structure Represents (t : RbTree K T) (s : Shape K T) : Prop where
  val : t.val = root s
  heap : Focus t.heap [] s

/-- The pointers of a tree hold a shape, seen from one of its subtrees. -/
structure Sees (t : RbTree K T) (path : Path K T) (s : Shape K T) : Prop where
  val : t.val = root (plug path s)
  heap : Focus t.heap path s

theorem sees_iff_represents {t : RbTree K T} {path : Path K T} {s : Shape K T} : Sees t path s ↔ Represents t (plug path s) :=
  ⟨fun h => ⟨h.val, focus_plug_iff.mpr h.heap⟩, fun h => ⟨h.val, focus_plug_iff.mp h.heap⟩⟩

theorem new_represents : Represents (new : RbTree K T) .nil :=
  ⟨rfl, trivial, trivial, List.nodup_nil⟩

/-! ## Reading a shape off a heap -/

/-- The shape below a pointer, a unit of fuel for each level; nothing when a pointer dangles or the fuel runs out. -/
def readShape : Nat → Heap K T → Option Ptr → Option (Shape K T)
  | _, _, none => some .nil
  | 0, _, some _ => none
  | fuel + 1, h, some p => do
    let n ← h.read p
    let l ← readShape fuel h n.left
    let r ← readShape fuel h n.right
    some (.node { ptr := p, color := n.color, key := n.key, val := n.val } l r)

/-- The shape reached from the root by child pointers. -/
def shape (t : RbTree K T) : Option (Shape K T) := readShape t.heap.size t.heap t.val

/-- A heap that holds a shape reads it back, with a unit of fuel for each node. -/
theorem Holds.readShape_eq {h : Heap K T} {parent : Option Ptr} {s : Shape K T} {fuel : Nat} (hs : Holds h parent s)
    (hfuel : s.numNodes ≤ fuel) : readShape fuel h (root s) = some s := by
  induction s generalizing parent fuel with
  | nil => cases fuel <;> rfl
  | node a l r ihl ihr =>
    obtain ⟨ha, hl, hr⟩ := hs
    simp only [numNodes] at hfuel
    obtain ⟨fuel, rfl⟩ := Nat.exists_eq_add_of_le' (by omega : 1 ≤ fuel)
    have hleft : readShape fuel h (root l) = some l := ihl hl (by omega)
    have hright : readShape fuel h (root r) = some r := ihr hr (by omega)
    simp [readShape, ha, Label.cell, hleft, hright]

/-- Every address of a shape that a heap holds is allocated. -/
theorem Holds.lt_size {h : Heap K T} {parent : Option Ptr} {s : Shape K T} (hs : Holds h parent s) :
    ∀ p ∈ ptrs s.inorder, p < h.size := by
  induction s generalizing parent with
  | nil => simp
  | node a l r ihl ihr =>
    obtain ⟨ha, hl, hr⟩ := hs
    simp only [inorder_node, ptrs_append, ptrs_cons, List.mem_append, List.mem_cons]
    rintro p (hp | rfl | hp)
    · exact ihl hl p hp
    · exact Arena.lt_size_of_read ha
    · exact ihr hr p hp

theorem Focus.lt_size {h : Heap K T} {path : Path K T} {s : Shape K T} (hf : Focus h path s) :
    ∀ p ∈ ptrs (plug path s).inorder, p < h.size :=
  (focus_plug_iff.mpr hf).below.lt_size

/-- A shape has no more nodes than the heap that holds it. -/
theorem Focus.numNodes_le {h : Heap K T} {path : Path K T} {s : Shape K T} (hf : Focus h path s) :
    (plug path s).numNodes ≤ h.size := by
  have hsub : ptrs (plug path s).inorder ⊆ List.range h.size := fun p hp => List.mem_range.mpr (hf.lt_size p hp)
  have hle := (List.subperm_of_subset hf.distinct hsub).length_le
  rwa [ptrs, List.length_map, inorder_length, List.length_range] at hle

/-- The shape that the pointers of a tree hold is the one reached from the root. -/
theorem Represents.shape_eq {t : RbTree K T} {s : Shape K T} (hr : Represents t s) : t.shape = some s := by
  rw [shape, hr.val]
  exact hr.heap.below.readShape_eq hr.heap.numNodes_le

/-! ## Attaching a node -/

/-- A new red node below the node of the nearest frame, where nothing is. -/
theorem Focus.attach {h : Heap K T} {f : Frame (Label K T)} {path : Path K T} (key : K) (val : T) (hf : Focus h (f :: path) .nil) :
    ∃ h', Heap.update (h.alloc { parent := some f.label.ptr, left := none, right := none, color := .red, key, val }) f.label.ptr
        (·.setChild (side f) h.size) = .ok h' ∧
      h'.size = h.size + 1 ∧ Focus h' (f :: path) (.node { ptr := h.size, color := .red, key, val } .nil .nil) := by
  have hlt := hf.lt_size
  have hd := hf.nodup
  have hdist := hf.distinct
  simp only [inorder_plug, inorder_nil, ptrs_nil, List.append_nil, List.nil_append] at hlt hd hdist
  obtain ⟨n, hn, -⟩ := hf.above.read_top rfl
  have hflt : f.label.ptr < h.size := Arena.lt_size_of_read hn
  -- the cells there were, but for that of the node above
  obtain ⟨h₁, hh₁⟩ : ∃ h₁ : Heap K T,
      h₁ = h.alloc { parent := some f.label.ptr, left := none, right := none, color := .red, key, val } := ⟨_, rfl⟩
  have hold : ∀ p < h.size, h₁.read p = h.read p := fun p hp => by rw [hh₁, Arena.read_alloc_of_lt _ _ hp]
  have hn₁ : h₁.read f.label.ptr = some n := by rw [hold _ hflt, hn]
  rw [← hh₁]
  refine ⟨_, Heap.update_eq _ hn₁, by simp [hh₁], hf.above.putChild (fun m hm => ?_) (fun q hq hne => ?_) hd, ⟨?_, trivial, trivial⟩, ?_⟩
  · rw [Arena.read_modify, if_pos rfl, hold _ hflt, hm]
    exact congrArg some (TreeNode.setChild_eq m (side f) h.size)
  · rw [Arena.read_modify, if_neg hne, hold q (hlt q hq)]
  · rw [Arena.read_modify, if_neg (Nat.ne_of_gt hflt), hh₁, Arena.read_alloc_size]
    rfl
  · have hnew : h.size ∉ ptrs (before (f :: path) ++ after (f :: path)) := fun hm => Nat.lt_irrefl _ (hlt _ hm)
    simp only [inorder_plug, inorder_node, inorder_nil, List.nil_append, List.append_assoc, List.cons_append, ptrs_append, ptrs_cons]
    rw [List.nodup_middle, ← ptrs_append]
    exact List.nodup_cons.mpr ⟨hnew, hd⟩

/-- `recolor_2` follows the fix-up and blackens the root, unless its loop fails. -/
theorem recolor2_follows {t : RbTree K T} {path : Path K T} {s : Shape K T} {node : Ptr} {fuel : Nat} (hs : Sees t path s)
    (hroot : root s = some node) (hb : BlackTop path) (hfuel : path.length ≤ fuel)
    (hrot : ∀ q ∈ rotations (rootColor s) path, q.relinks = true ∨ q.asserts = true) :
    ((∃ q ∈ rotations (rootColor s) path, q.relinks = false) ∧ ∃ e, recolor2 fuel t node = .error e) ∨
      (∀ q ∈ rotations (rootColor s) path, q.relinks = true) ∧
        ∃ t', recolor2 fuel t node = .ok t' ∧ t'.heap.size = t.heap.size ∧ Represents t' (paint .black (fixup path s)) := by
  rcases recolorLoop_follows hs.heap hroot hb hfuel hrot with ⟨hq, e, he⟩ | ⟨hall, h', curr, heq, hsize, hf', hend⟩
  · exact Or.inl ⟨hq, e, by simp [recolor2, he]⟩
  · refine Or.inr ⟨hall, ?_⟩
    rcases hend with hcurr | ⟨-, ⟨n, hn, hnp⟩, hroot', hcol⟩
    · obtain ⟨n, hn, hnp⟩ := hf'.parent hcurr
      obtain ⟨a, l, r, hfix, rfl⟩ := exists_node_of_root hcurr
      rw [hfix] at hf' ⊢
      obtain ⟨h'', hset, hsize', hf''⟩ := hf'.setColor .black
      refine ⟨{ val := some a.ptr, heap := h'' }, ?_, by simp [hsize', hsize], ⟨rfl, hf''⟩⟩
      simp [recolor2, heq, hn, hnp, hset]
    · refine ⟨{ t with heap := h' }, ?_, hsize, ?_, ?_⟩
      · simp [recolor2, heq, hn, hnp]
      · rw [root_paint, hroot', ← hs.val]
      · rwa [paint_of_rootColor hcol]

/-- The tree after an insert of a node at the end of a path. -/
def grown (path : Path K T) (a : Label K T) : Shape K T := paint .black (fixup path (.node a .nil .nil))

/-- The outcome of an insert into a tree whose heap has the given size: all its rotations relink and it follows the fix-up along the
path, or one of them does not and it fails. -/
def InsertFollows (size : Nat) (path : Path K T) (key : K) (val : T) (r : Except Fault (RbTree K T)) : Prop :=
  ((∃ q ∈ rotations .red path, q.relinks = false) ∧ ∃ e, r = .error e) ∨
    (∀ q ∈ rotations .red path, q.relinks = true) ∧
      ∃ t, r = .ok t ∧ t.heap.size = size + 1 ∧ Represents t (grown path { ptr := size, color := .red, key, val })

/-- The attachment at the end of the descent. -/
theorem attach_follows {t : RbTree K T} {f : Frame (Label K T)} {path : Path K T} {fuel : Nat} {key : K} {val : T}
    (hs : Sees t (f :: path) .nil) (hb : BlackTop (f :: path)) (hfuel : (f :: path).length ≤ fuel)
    (hrot : ∀ q ∈ rotations .red (f :: path), q.relinks = true ∨ q.asserts = true) :
    InsertFollows t.heap.size (f :: path) key val (attach fuel t f.label.ptr (side f) key val true) := by
  obtain ⟨h', hupd, hsize, hf'⟩ := hs.heap.attach key val
  obtain ⟨n, hn, -, hcol, -⟩ := hf'.frame
  have hval' : t.val = root (plug (f :: path) (.node { ptr := t.heap.size, color := .red, key, val } .nil .nil)) :=
    hs.val.trans (root_plug (List.cons_ne_nil _ _) _ _)
  by_cases hc : f.label.color = .red
  · have heq : attach fuel t f.label.ptr (side f) key val true = recolor2 fuel { t with heap := h' } t.heap.size := by
      simp [attach, hupd, hn, hcol, hc]
    rw [heq]
    rcases recolor2_follows (t := { t with heap := h' }) ⟨hval', hf'⟩ rfl hb hfuel hrot with he | ⟨hall, t', ht', hsize', hr⟩
    · exact Or.inl he
    · exact Or.inr ⟨hall, t', ht', by rw [hsize']; exact hsize, hr⟩
  · have hblack := Color.eq_black hc
    refine Or.inr ⟨by simp [rotations_black _ _ hblack], { t with heap := h' }, by simp [attach, hupd, hn, hcol, hc], hsize, ?_⟩
    rw [grown, fixup_of_black _ _ hblack, paint_of_rootColor (rootColor_plug _ hb)]
    exact ⟨hval', focus_plug_iff.mpr hf'⟩

/-! ## The descent -/

section

variable [LinearOrder K]

/-- The path of an insert from a subtree: to the missing child where the key belongs, or nowhere when it meets the key. -/
def descend (key : K) : Shape K T → Path K T → Option (Path K T)
  | .nil, path => some path
  | .node a l r, path =>
    match compare a.key key with
    | .lt => descend key r (.right l a :: path)
    | .eq => none
    | .gt => descend key l (.left a r :: path)

/-- The rotations of the insert of a key. -/
def insertRotations (t : RbTree K T) (key : K) : List Rotation :=
  match t.shape.bind fun s => descend key s [] with
  | some path => rotations .red path
  | none => []

/-- The descent ends below the tree it started in. -/
theorem plug_of_descend {key : K} {s : Shape K T} {path path' : Path K T} (h : descend key s path = some path') :
    plug path' .nil = plug path s := by
  induction s generalizing path with
  | nil =>
    cases h
    rfl
  | node a l r ihl ihr =>
    simp only [descend] at h
    cases hc : compare a.key key with
    | lt =>
      simp only [hc] at h
      rw [ihr h]
      rfl
    | eq => simp [hc] at h
    | gt =>
      simp only [hc] at h
      rw [ihl h]
      rfl

/-- The descent of `insert` ends where `descend` does. -/
theorem insertNode_eq_attach {t : RbTree K T} {path path' : Path K T} {s : Shape K T} {slf : Ptr} {fuel : Nat} {key : K}
    (loopFuel : Nat) (val : T) (alloc : Bool) (hf : Focus t.heap path s) (hroot : root s = some slf)
    (hdesc : descend key s path = some path') (hfuel : s.numNodes ≤ fuel) :
    ∃ f above, path' = f :: above ∧
      insertNode loopFuel fuel t slf key val alloc = attach loopFuel t f.label.ptr (side f) key val alloc := by
  induction s generalizing path slf fuel with
  | nil => cases hroot
  | node a l r ihl ihr =>
    cases hroot
    simp only [numNodes] at hfuel
    obtain ⟨fuel, rfl⟩ := Nat.exists_eq_add_of_le' (by omega : 1 ≤ fuel)
    have hread := Heap.node_eq hf.read
    simp only [descend] at hdesc
    simp only [insertNode, hread, ok_bind, Label.cell]
    cases hcmp : compare a.key key with
    | lt =>
      simp only [hcmp] at hdesc ⊢
      cases r with
      | nil =>
        cases hdesc
        exact ⟨.right l a, path, rfl, rfl⟩
      | node b rl rr =>
        have hf' : Focus t.heap (.right l a :: path) (.node b rl rr) := focus_cons_iff.mpr hf
        exact ihr hf' rfl hdesc (by omega)
    | eq => simp [hcmp] at hdesc
    | gt =>
      simp only [hcmp] at hdesc ⊢
      cases l with
      | nil =>
        cases hdesc
        exact ⟨.left a r, path, rfl, rfl⟩
      | node b ll lr =>
        have hf' : Focus t.heap (.left a r :: path) (.node b ll lr) := focus_cons_iff.mpr hf
        exact ihl hf' rfl hdesc (by omega)

/-- The descent of `insert` fails where it meets the key. -/
theorem insertNode_met {t : RbTree K T} {path : Path K T} {s : Shape K T} {slf : Ptr} {fuel : Nat} {key : K} (loopFuel : Nat) (val : T)
    (alloc : Bool) (hf : Focus t.heap path s) (hroot : root s = some slf) (hdesc : descend key s path = none) (hfuel : s.numNodes ≤ fuel) :
    insertNode loopFuel fuel t slf key val alloc = .error .keyPresent := by
  induction s generalizing path slf fuel with
  | nil => cases hroot
  | node a l r ihl ihr =>
    cases hroot
    simp only [numNodes] at hfuel
    obtain ⟨fuel, rfl⟩ := Nat.exists_eq_add_of_le' (by omega : 1 ≤ fuel)
    simp only [descend] at hdesc
    simp only [insertNode, Heap.node_eq hf.read, ok_bind, Label.cell]
    cases hcmp : compare a.key key with
    | lt =>
      simp only [hcmp] at hdesc ⊢
      cases r with
      | nil => cases hdesc
      | node b rl rr =>
        have hf' : Focus t.heap (.right l a :: path) (.node b rl rr) := focus_cons_iff.mpr hf
        exact ihr hf' rfl hdesc (by omega)
    | eq => rfl
    | gt =>
      simp only [hcmp] at hdesc ⊢
      cases l with
      | nil => cases hdesc
      | node b ll lr =>
        have hf' : Focus t.heap (.left a r :: path) (.node b ll lr) := focus_cons_iff.mpr hf
        exact ihl hf' rfl hdesc (by omega)

/-- The descent and the attachment. -/
theorem insertNode_follows {t : RbTree K T} {path : Path K T} {s : Shape K T} {slf : Ptr} {loopFuel fuel : Nat} {key : K} {val : T}
    (hr : Represents t s) (hroot : root s = some slf) (hc : rootColor s = .black) (hdesc : descend key s [] = some path)
    (hfuel : s.numNodes ≤ fuel) (hloop : t.heap.size ≤ loopFuel)
    (hrot : ∀ q ∈ rotations .red path, q.relinks = true ∨ q.asserts = true) :
    InsertFollows t.heap.size path key val (insertNode loopFuel fuel t slf key val true) := by
  obtain ⟨f, above, rfl, heq⟩ := insertNode_eq_attach loopFuel val true hr.heap hroot hdesc hfuel
  have hplug := plug_of_descend hdesc
  rw [plug_nil] at hplug
  have hs : Sees t (f :: above) .nil := sees_iff_represents.mpr (by rw [hplug]; exact hr)
  have hlen := Nat.le_trans (length_le_numNodes_plug (f :: above) .nil) hs.heap.numNodes_le
  rw [← hplug] at hc
  rw [heq]
  exact attach_follows hs (blackTop_of_rootColor hc) (Nat.le_trans hlen hloop) hrot

/-- An insert whose allocation fails leaves the tree. -/
theorem insertNode_noAlloc {t t' : RbTree K T} {slf : Ptr} {loopFuel fuel : Nat} {key : K} {val : T}
    (h : insertNode loopFuel fuel t slf key val false = .ok t') : t' = t := by
  induction fuel generalizing slf with
  | zero => cases h
  | succ fuel ih =>
    cases hn : t.heap.node slf with
    | error e => simp [insertNode, hn] at h
    | ok n =>
      simp only [insertNode, hn, ok_bind] at h
      cases hc : compare n.key key with
      | lt =>
        cases hr : n.right with
        | none => simpa [hc, hr, attach, eq_comm] using h
        | some node => exact ih (by simpa [hc, hr] using h)
      | eq => simp [hc] at h
      | gt =>
        cases hl : n.left with
        | none => simpa [hc, hl, attach, eq_comm] using h
        | some node => exact ih (by simpa [hc, hl] using h)

theorem insert_noAlloc {t t' : RbTree K T} {key : K} {val : T} (h : insert t key val false = .ok t') : t' = t := by
  cases hv : t.val with
  | none => simpa [insert, hv, eq_comm] using h
  | some node =>
    simp only [insert, hv] at h
    exact insertNode_noAlloc h

/-- `insert` of a key that its descent meets. -/
theorem insert_met {t : RbTree K T} {s : Shape K T} {key : K} (hr : Represents t s) (hdesc : descend key s [] = none) (val : T)
    (alloc : Bool) : insert t key val alloc = .error .keyPresent := by
  cases s with
  | nil => cases hdesc
  | node a l r =>
    simp only [insert, hr.val, root_node]
    exact insertNode_met _ val alloc hr.heap rfl hdesc (Nat.le_succ_of_le hr.heap.numNodes_le)

/-- `insert` of a key that its descent does not meet. -/
theorem insert_follows {t : RbTree K T} {s : Shape K T} {path : Path K T} {key : K} {val : T} (hr : Represents t s)
    (hc : rootColor s = .black) (hdesc : descend key s [] = some path)
    (hrot : ∀ q ∈ rotations .red path, q.relinks = true ∨ q.asserts = true) :
    InsertFollows t.heap.size path key val (insert t key val true) := by
  cases s with
  | nil =>
    cases hdesc
    obtain ⟨cell, hcell⟩ : ∃ cell : TreeNode K T,
        cell = { parent := none, left := none, right := none, color := .black, key, val } := ⟨_, rfl⟩
    refine Or.inr ⟨by simp [rotations], { val := some t.heap.size, heap := t.heap.alloc cell }, by simp [insert, hr.val, hcell],
      by simp, rfl, trivial, ?_, ?_⟩
    · exact ⟨by rw [hcell]; exact Arena.read_alloc_size _ _, trivial, trivial⟩
    · simp [grown, fixup, paint]
  | node a l r =>
    have hsize := hr.heap.numNodes_le
    have heq : insert t key val true = insertNode (t.heap.size + 1) (t.heap.size + 1) t a.ptr key val true := by
      simp [insert, hr.val]
    rw [heq]
    exact insertNode_follows hr rfl hc hdesc (Nat.le_succ_of_le hsize) (Nat.le_succ _) hrot

end

/-! ## Lookups -/

section

variable [LinearOrder K]

/-- `get` finds a key that is stored, and only such a key. -/
theorem getNode_eq {h : Heap K T} {parent : Option Ptr} {s : Shape K T} {fuel : Nat} (key : K) (hs : Holds h parent s)
    (hfuel : s.numNodes ≤ fuel) :
    (∃ v, getNode key fuel h (root s) = .ok (some v) ∧ (key, v) ∈ entries s) ∨
      getNode key fuel h (root s) = .ok none ∧ ∀ v, (key, v) ∉ entries s := by
  induction s generalizing parent fuel with
  | nil =>
    refine Or.inr ⟨?_, by simp⟩
    cases fuel <;> rfl
  | node a l r ihl ihr =>
    obtain ⟨ha, hl, hr⟩ := hs
    simp only [numNodes] at hfuel
    obtain ⟨fuel, rfl⟩ := Nat.exists_eq_add_of_le' (by omega : 1 ≤ fuel)
    have hread := Heap.node_eq ha
    by_cases hk : a.key = key
    · refine Or.inl ⟨a.val, by simp [getNode, hread, Label.cell, hk], ?_⟩
      simp [Label.entry, hk]
    · rcases @ihl (some a.ptr) fuel hl (by omega) with ⟨v, hv, hmem⟩ | ⟨hn, hnot⟩
      · exact Or.inl ⟨v, by simp [getNode, hread, Label.cell, hk, hv], by simp [hmem]⟩
      · have hstep : getNode key (fuel + 1) h (root (.node a l r)) = getNode key fuel h (root r) := by
          simp [getNode, hread, Label.cell, hk, hn]
        rw [hstep]
        rcases @ihr (some a.ptr) fuel hr (by omega) with ⟨v, hv, hmem⟩ | ⟨hn', hnot'⟩
        · exact Or.inl ⟨v, hv, by simp [hmem]⟩
        · exact Or.inr ⟨hn', fun v => by simp [hnot v, hnot' v, Label.entry, Ne.symm hk]⟩

/-- A key that is stored with one value is found with it, by `get` and by `contains`. -/
theorem get_of_mem {t : RbTree K T} {s : Shape K T} {key : K} {v : T} (hr : Represents t s)
    (hd : ((entries s).map Prod.fst).Nodup) (hm : (key, v) ∈ entries s) :
    t.get key = .ok (some v) ∧ t.contains key = .ok true := by
  have hget : t.get key = .ok (some v) := by
    rw [RbTree.get, hr.val]
    rcases getNode_eq key hr.heap.below hr.heap.numNodes_le with ⟨v', hv', hm'⟩ | ⟨-, hnot⟩
    · rw [hv', List.inj_on_of_nodup_map hd hm' hm rfl |> Prod.mk.inj |>.2]
    · exact absurd hm (hnot v)
  exact ⟨hget, by simp [contains, hget, Except.map]⟩

/-- A key that is not stored is not found. -/
theorem get_of_not_mem {t : RbTree K T} {s : Shape K T} {key : K} (hr : Represents t s) (hm : key ∉ (entries s).map Prod.fst) :
    t.get key = .ok none ∧ t.contains key = .ok false := by
  have hget : t.get key = .ok none := by
    rw [RbTree.get, hr.val]
    rcases getNode_eq key hr.heap.below hr.heap.numNodes_le with ⟨v, -, hm'⟩ | ⟨hn, -⟩
    · exact absurd (List.mem_map_of_mem hm') hm
    · exact hn
  exact ⟨hget, by simp [contains, hget, Except.map]⟩

end

end MiriWeirdness.RbTree
