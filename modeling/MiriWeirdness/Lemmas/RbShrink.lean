import MiriWeirdness.Lemmas.RbRemove

/-!
# Colours after a removal

Nothing is recoloured after a removal. A red leaf can be cut off a red-black tree, and so can its only node; without a black leaf the
paths through its place have one black node less than the others.
-/

namespace MiriWeirdness.RbTree

open BinaryTree

variable {K T : Type}

/-! ## The subtree -/

/-- Without its leaf, a subtree is as balanced as it was when the leaf is red. When the leaf is black, nothing is left of the subtree, or
it is not balanced. -/
theorem pulled_balanced {s s' : Shape K T} {c : Label K T} {n : Nat} (hb : Balanced s n) (hp : pulled s = some s')
    (hc : spineLeaf s = some c) :
    (c.color = .red ∧ Balanced s' n ∧ (rootColor s' = .black ∨ rootColor s' = rootColor s)) ∨
      c.color = .black ∧ (s' = .nil ∧ n = 1 ∨ ∀ m, ¬Balanced s' m) := by
  induction s generalizing s' n with
  | nil => cases hp
  | node a l r ihl _ =>
    obtain ⟨hred, m, rfl, hl, hr⟩ := hb
    cases l with
    | nil =>
      cases r with
      | nil =>
        cases hp
        cases hc
        obtain rfl : m = 0 := hl
        cases hcol : c.color with
        | red => exact Or.inl ⟨rfl, rfl, Or.inl rfl⟩
        | black => exact Or.inr ⟨rfl, Or.inl ⟨rfl, rfl⟩⟩
      | node d rl rr => cases hp
    | node b ll lr =>
      cases r with
      | nil => cases hp
      | node d rl rr =>
        obtain ⟨l', hl', rfl⟩ := pulled_node hp
        rcases ihl hl hl' hc with ⟨hcol, hbal, hroot⟩ | ⟨hcol, ⟨rfl, rfl⟩ | hnot⟩
        · refine Or.inl ⟨hcol, ⟨fun ha => ⟨?_, (hred ha).2⟩, m, rfl, hbal, hr⟩, Or.inr rfl⟩
          rcases hroot with hroot | hroot
          · exact hroot
          · exact hroot.trans (hred ha).1
        · -- the other child still has a black node on its paths
          refine Or.inr ⟨hcol, Or.inr ?_⟩
          rintro k ⟨-, j, -, hnil, hr'⟩
          obtain rfl : j = 0 := hnil
          exact absurd (hr'.unique hr) (by decide)
        · refine Or.inr ⟨hcol, Or.inr ?_⟩
          rintro k ⟨-, j, -, hl'', -⟩
          exact hnot j hl''

/-! ## The whole tree -/

theorem pathBalanced_withEntry {kv : K × T} {path : Path K T} {n : Nat} : PathBalanced n (withEntry kv path) ↔ PathBalanced n path := by
  rcases path with _ | ⟨f, path⟩
  · rfl
  · cases f <;> rfl

@[simp] theorem topColor_withEntry (kv : K × T) (path : Path K T) : topColor (withEntry kv path) = topColor path := by
  rcases path with _ | ⟨f, path⟩
  · rfl
  · cases f <;> rfl

theorem BlackTop.withEntry {path : Path K T} (kv : K × T) (h : BlackTop path) : BlackTop (withEntry kv path) := by
  rcases path with _ | ⟨f, _ | ⟨g, path⟩⟩
  · trivial
  · cases f <;> exact h
  · cases f <;> exact h

/-- A subtree below a path that is balanced around it. -/
theorem rootColor_plug_of_blackTop {path : Path K T} {t : Shape K T} (hb : BlackTop path) (ht : path = [] → rootColor t = .black) :
    rootColor (plug path t) = .black := by
  cases path with
  | nil => exact ht rfl
  | cons f path => exact rootColor_plug t hb

/-- The subtree that is left is empty when the node was a leaf. -/
theorem pulled_eq_nil_iff {a : Label K T} {l r : Shape K T} : pulled (.node a l r) = some .nil ↔ l = .nil ∧ r = .nil := by
  cases l with
  | nil => cases r <;> simp [pulled]
  | node b ll lr => cases r <;> simp [pulled]

/-- A leaf is the only node of a tree when nothing is above it. -/
theorem numNodes_plug_eq_one_iff {path : Path K T} {a : Label K T} {l r : Shape K T} :
    (plug path (.node a l r)).numNodes = 1 ↔ path = [] ∧ l = .nil ∧ r = .nil := by
  have hzero : ∀ s : Shape K T, s.numNodes = 0 ↔ s = .nil := fun s => by cases s <;> simp [numNodes]
  cases path with
  | nil => simp [numNodes, hzero]
  | cons f path =>
    have hfill : 2 ≤ (f.fill (.node a l r)).numNodes := by
      cases f <;> simp only [Frame.fill, numNodes] <;> omega
    rw [plug_cons, numNodes_plug]
    simp only [List.cons_ne_nil, false_and, iff_false]
    omega

/-- Without the leaf at the end of a left spine, and with another entry above, the tree is red-black when the leaf is red or is all there
is. -/
theorem plug_pulled_balanced_iff {path : Path K T} {a c : Label K T} {l r s' : Shape K T} {n : Nat} (kv : K × T)
    (hb : Balanced (plug path (.node a l r)) n) (hc : rootColor (plug path (.node a l r)) = .black)
    (hs' : pulled (.node a l r) = some s') (hleaf : spineLeaf (.node a l r) = some c) :
    (rootColor (plug (withEntry kv path) s') = .black ∧ ∃ m, Balanced (plug (withEntry kv path) s') m) ↔
      c.color = .red ∨ (plug path (.node a l r)).numNodes = 1 := by
  obtain ⟨k, hk, hp, htop⟩ := balanced_of_plug hb
  have hblack := (blackTop_of_rootColor hc).withEntry kv
  rw [numNodes_plug_eq_one_iff, ← @pulled_eq_nil_iff _ _ a, hs', Option.some.injEq]
  rcases pulled_balanced hk hs' hleaf with ⟨hcol, hbal, hroot⟩ | ⟨hcol, ⟨rfl, rfl⟩ | hnot⟩
  · refine iff_of_true ⟨rootColor_plug_of_blackTop hblack fun hnil => ?_, ?_⟩ (Or.inl hcol)
    · have hnil : path = [] := by
        rcases path with _ | ⟨f, path⟩
        · rfl
        · cases f <;> cases hnil
      subst hnil
      rcases hroot with hroot | hroot
      · exact hroot
      · exact hroot.trans hc
    · refine balanced_plug (pathBalanced_withEntry.mpr hp) hbal fun htopc => ?_
      rw [topColor_withEntry] at htopc
      rcases hroot with hroot | hroot
      · exact hroot
      · exact hroot.trans (htop htopc)
  · have hred : c.color ≠ .red := by simp [hcol]
    cases path with
    | nil => exact iff_of_true ⟨rfl, 0, rfl⟩ (Or.inr ⟨rfl, rfl⟩)
    | cons f path =>
      refine iff_of_false ?_ (by simp [hred])
      rintro ⟨-, m, hm⟩
      -- the sibling has a black node on its paths
      obtain ⟨j, hj, hpj, -⟩ := balanced_of_plug hm
      obtain rfl : j = 0 := hj
      exact absurd ((pathBalanced_withEntry.mp hpj).1.unique hp.1) (by decide)
  · refine iff_of_false ?_ ?_
    · rintro ⟨-, m, hm⟩
      obtain ⟨j, hj, -⟩ := balanced_of_plug hm
      exact hnot j hj
    · rintro (hred | ⟨-, rfl⟩)
      · simp [hcol] at hred
      · exact hnot 0 rfl

section

variable [LinearOrder K]

/-- The condition on a removal under which the tree is red-black after it: the key is not found, or the left spine below the node that is
found ends in a leaf which is red or is the only node of the tree. -/
def removeKeeps (key : K) (s : Shape K T) : Bool :=
  match search key s [] with
  | none => true
  | some (_, a, l, r) =>
    match spineLeaf (.node a l r) with
    | none => false
    | some leaf => leaf.color = .red || s.numNodes = 1

/-- A removal leaves a red-black tree exactly under this condition. -/
theorem shrunk_balanced_iff {s : Shape K T} {n : Nat} (hb : Balanced s n) (hc : rootColor s = .black) (key : K) :
    (∃ s', shrunk key s = some s' ∧ rootColor s' = .black ∧ ∃ m, Balanced s' m) ↔ removeKeeps key s = true := by
  unfold shrunk removeKeeps
  cases hsearch : search key s [] with
  | none => exact iff_of_true ⟨s, rfl, hc, n, hb⟩ rfl
  | some found =>
    obtain ⟨path, a, l, r⟩ := found
    obtain rfl : plug path (.node a l r) = s := plug_of_search hsearch
    have hsome := isSome_pulled (.node a l r)
    cases hleaf : spineLeaf (.node a l r) with
    | none =>
      rw [hleaf, Option.isSome_none, Option.isSome_eq_false_iff, Option.isNone_iff_eq_none] at hsome
      simp [hsome, hleaf]
    | some c =>
      rw [hleaf, Option.isSome_some, Option.isSome_iff_exists] at hsome
      obtain ⟨s', hs'⟩ := hsome
      simp only [hs', hleaf, Option.map_some, Option.some.injEq, exists_eq_left', Bool.or_eq_true, decide_eq_true_eq]
      exact plug_pulled_balanced_iff a.entry hb hc hs' hleaf

end

end MiriWeirdness.RbTree
