import MiriWeirdness.Lemmas.RbShrink

/-!
# What a removal does to the tree

`remove_node` copies the cell of an only child over the node's, with its parent pointer and its colour, and cuts off black leaves. So most
removals break a red-black tree. The condition under which one does not is exact, and runs of inserts and removals that meet it keep the
tree.
-/

namespace MiriWeirdness.RbTree

open BinaryTree

variable {K T : Type}

/-- The links of the tree agree, its root has no parent and is black, no red node has a red child, and every path down to a missing child
has the same number of black nodes. -/
def WellFormed (t : RbTree K T) : Prop :=
  ∃ s, Represents t s ∧ rootColor s = .black ∧ NoRedRed s ∧ ∃ n, ∀ c ∈ blackCounts s, c = n

theorem wellFormed_iff {t : RbTree K T} : WellFormed t ↔ ∃ s, Represents t s ∧ rootColor s = .black ∧ ∃ n, Balanced s n := by
  constructor
  · rintro ⟨s, hr, hc, hred, n, hn⟩
    exact ⟨s, hr, hc, n, balanced_iff.mpr ⟨hred, hn⟩⟩
  · rintro ⟨s, hr, hc, n, hb⟩
    exact ⟨s, hr, hc, hb.noRedRed, n, hb.blackCounts⟩

/-- An empty tree. -/
theorem WellFormed.of_none {t : RbTree K T} (h : t.val = none) : WellFormed t :=
  ⟨.nil, ⟨h, trivial, trivial, List.nodup_nil⟩, rfl, trivial, 0, fun _ => List.mem_singleton.mp⟩

/-- What a following insert finds: parent pointers that name the parents, and a black root without one. -/
theorem WellFormed.links {t : RbTree K T} (h : WellFormed t) :
    WellLinked t ∧ ∀ p, t.val = some p → ∃ n, t.heap.read p = some n ∧ n.color = .black := by
  obtain ⟨s, hr, hc, -⟩ := h
  refine ⟨hr.wellLinked, fun p hp => ?_⟩
  obtain ⟨a, l, r, rfl, rfl⟩ := exists_node_of_root (hr.val.symm.trans hp)
  exact ⟨_, hr.heap.read, hc⟩

section

variable [LinearOrder K]

/-- The condition on a removal, read off the tree. -/
def RemoveKeeps (t : RbTree K T) (key : K) : Prop := t.shape.any (removeKeeps key) = true

instance (t : RbTree K T) (key : K) : Decidable (RemoveKeeps t key) := inferInstanceAs (Decidable (_ = true))

theorem removeKeeps_iff {t : RbTree K T} {s : Shape K T} (hr : Represents t s) (key : K) :
    RemoveKeeps t key ↔ removeKeeps key s = true := by
  rw [RemoveKeeps, hr.shape_eq, Option.any_some]

/-- A removal from a well-formed tree returns, and leaves a tree that is empty or well-formed if and only if the key is not found, or the
left spine below the node that is found ends in a leaf which is red or is the only node of the tree. -/
theorem remove_wellFormed_iff {t : RbTree K T} (ht : WellFormed t) (key : K) :
    ∃ t' v, remove t key = .ok (t', v) ∧ ((t'.val = none ∨ WellFormed t') ↔ RemoveKeeps t key) := by
  obtain ⟨s, hr, hc, n, hb⟩ := wellFormed_iff.mp ht
  obtain ⟨t', hrem, hafter⟩ := remove_follows hr key
  refine ⟨t', _, hrem, ?_⟩
  have hempty : (t'.val = none ∨ WellFormed t') ↔ WellFormed t' := or_iff_right_of_imp WellFormed.of_none
  rw [hempty, removeKeeps_iff hr, ← shrunk_balanced_iff hb hc, wellFormed_iff]
  rcases hafter with ⟨s', hs', hr'⟩ | ⟨hnone, hloops⟩
  · constructor
    · rintro ⟨s'', hr'', hbal⟩
      obtain rfl : s' = s'' := Option.some.inj (hr'.shape_eq.symm.trans hr''.shape_eq)
      exact ⟨s', hs', hbal⟩
    · rintro ⟨s'', hs'', hbal⟩
      obtain rfl : s' = s'' := Option.some.inj (hs'.symm.trans hs'')
      exact ⟨s', hr', hbal⟩
  · refine iff_of_false ?_ ?_
    · rintro ⟨s'', hr'', -⟩
      exact hr''.not_loops hloops
    · rintro ⟨s'', hs'', -⟩
      rw [hnone] at hs''
      cases hs''

theorem wellFormed_of_inserts {ops : List (Bool × K × T)} {t : RbTree K T} (hd : (ops.map (·.2.1)).Nodup)
    (hc : Runs.Along allocStep StepKeepsColors new ops) (ht : Runs.exec allocStep new ops = .ok t) : WellFormed t := by
  obtain ⟨s, kvs, n, hs, hb, -⟩ := balanced_of_run hd hc ht
  exact wellFormed_iff.mpr ⟨s, hs.represents, hs.black, n, hb⟩

/-- The inserts of 1, 2 and 3 leave red 1 and red 3 below black 2. -/
theorem remove_wellFormed_iff_three :
    ∃ t, Runs.exec allocStep (new : RbTree ℕ ℕ) [(true, 1, 10), (true, 2, 20), (true, 3, 30)] = .ok t ∧
      ∃ t' v, remove t 1 = .ok (t', v) ∧ ((t'.val = none ∨ WellFormed t') ↔ RemoveKeeps t 1) := by
  have ht : ∀ t, Runs.exec allocStep (new : RbTree ℕ ℕ) [(true, 1, 10), (true, 2, 20), (true, 3, 30)] = .ok t → WellFormed t :=
    fun t h => wellFormed_of_inserts (by decide) (by decide) h
  exact ⟨_, rfl, remove_wellFormed_iff (ht _ rfl) 1⟩

/-- The root, of the keys 1 and 2, becomes a copy of its red child and its own parent, and the next insert panics. Without 0, a black leaf
of the keys 0 to 3, the path to its place has one black node less than the others. -/
theorem remove_breaks_tree :
    (∃ t t' v, Runs.exec allocStep (new : RbTree ℕ ℕ) [(true, 1, 10), (true, 2, 20)] = .ok t ∧ WellFormed t ∧
      remove t 1 = .ok (t', v) ∧ ¬(t'.val = none ∨ WellFormed t') ∧ insert t' 3 30 true = .error assertion) ∧
    ∃ t t' v, Runs.exec allocStep (new : RbTree ℕ ℕ) [(true, 0, 10), (true, 1, 20), (true, 2, 30), (true, 3, 40)] = .ok t ∧
      WellFormed t ∧ remove t 0 = .ok (t', v) ∧ ¬(t'.val = none ∨ WellFormed t') := by
  constructor
  · obtain ⟨t, ht⟩ : ∃ t, Runs.exec allocStep (new : RbTree ℕ ℕ) [(true, 1, 10), (true, 2, 20)] = .ok t := ⟨_, rfl⟩
    have hw := wellFormed_of_inserts (by decide) (by decide) ht
    cases ht
    refine ⟨_, _, _, rfl, hw, rfl, ?_, rfl⟩
    rintro (h | h)
    · cases h
    · obtain ⟨n, hn, hp⟩ := h.links.1.root 0 rfl
      cases hn
      cases hp
  · obtain ⟨t, ht⟩ : ∃ t, Runs.exec allocStep (new : RbTree ℕ ℕ) [(true, 0, 10), (true, 1, 20), (true, 2, 30), (true, 3, 40)] = .ok t :=
      ⟨_, rfl⟩
    have hw := wellFormed_of_inserts (by decide) (by decide) ht
    cases ht
    refine ⟨_, _, _, rfl, hw, rfl, ?_⟩
    rintro (h | ⟨s, hr, -, -, n, hn⟩)
    · cases h
    · cases hr.shape_eq
      exact absurd ((hn 1 (by decide)).trans (hn 2 (by decide)).symm) (by decide)

/-! ## Runs of inserts and removals -/

/-- A call of `insert`, whose allocation may fail, or of `remove`. -/
inductive Op (K T : Type) where
  | insert (alloc : Bool) (key : K) (val : T)
  | remove (key : K)

/-- The call. -/
def opStep (t : RbTree K T) : Op K T → Except Fault (RbTree K T)
  | .insert alloc key val => insert t key val alloc
  | .remove key => (remove t key).map (·.1)

/-- The condition on a call under which the tree is well-formed where it returns. -/
def OpKeeps (t : RbTree K T) : Op K T → Prop
  | .insert alloc key val => StepKeepsColors t (alloc, key, val)
  | .remove key => RemoveKeeps t key

/-- One call. -/
theorem WellFormed.opStep {t t' : RbTree K T} {op : Op K T} (ht : WellFormed t) (hop : OpKeeps t op) (h : opStep t op = .ok t') :
    WellFormed t' := by
  obtain ⟨s, hr, hc, n, hb⟩ := wellFormed_iff.mp ht
  cases op with
  | insert alloc key val =>
    cases alloc with
    | false =>
      obtain rfl := insert_noAlloc h
      exact ht
    | true =>
      obtain ⟨path, m, -, hr', hm⟩ := hr.insert_balanced hb hc (hop rfl) h
      exact wellFormed_iff.mpr ⟨_, hr', rootColor_paint_black _, m, hm⟩
  | remove key =>
    obtain ⟨s', hs', hc', m, hm⟩ := (shrunk_balanced_iff hb hc key).mpr ((removeKeeps_iff hr key).mp hop)
    obtain ⟨t'', hrem, hafter⟩ := remove_follows hr key
    obtain rfl : t'' = t' := by simpa [RbTree.opStep, hrem, Except.map] using h
    rcases hafter with ⟨s'', hs'', hr'⟩ | ⟨hnone, -⟩
    · obtain rfl : s' = s'' := Option.some.inj (hs'.symm.trans hs'')
      exact wellFormed_iff.mpr ⟨s', hr', hc', m, hm⟩
    · rw [hs'] at hnone
      cases hnone

/-- In a run of inserts and removals that meet their conditions, the tree is well-formed after every call that returns. -/
theorem wellFormed_of_run {ops : List (Op K T)} {t : RbTree K T} (hc : Runs.Along opStep OpKeeps new ops)
    (ht : Runs.exec opStep new ops = .ok t) : WellFormed t :=
  Runs.invariant WellFormed (fun _ _ _ hw hop h => hw.opStep hop h) (WellFormed.of_none rfl) hc ht

end

end MiriWeirdness.RbTree
