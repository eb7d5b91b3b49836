import MiriWeirdness.Lemmas.RbChildren
import MiriWeirdness.Theorems.BinarySearchTree
import MiriWeirdness.Theorems.RbRemove

/-!
# The red-black tree as a binary search tree

Whatever its removals have done to the colours and the parent pointers, a red-black tree answers lookups and removals as
`binary_search_tree.rs` does on the same entries, and its `Drop` gives back every node that is still reached, once.
-/

namespace MiriWeirdness

/-- A call that does not insert. -/
inductive Call (K : Type) where
  | get (key : K)
  | remove (key : K)
  deriving DecidableEq, Repr

/-- The values that removals returned, in a log of calls and their answers. -/
def returned {K T : Type} (log : List (Call K × Option T)) : List T :=
  log.filterMap fun e =>
    match e.1 with
    | .get _ => none
    | .remove _ => e.2

variable {K T : Type}

theorem returned_append (log log' : List (Call K × Option T)) : returned (log ++ log') = returned log ++ returned log' :=
  List.filterMap_append

section

variable [LinearOrder K]

/-- The call, with its answer. -/
def BinarySearchTree.call (t : BinarySearchTree.Slot K T) : Call K → Except Fault (BinarySearchTree.Slot K T × List (Call K × Option T))
  | .get key => .ok (t, [(.get key, BinarySearchTree.get key t)])
  | .remove key => .ok ((BinarySearchTree.remove key t).2, [(.remove key, (BinarySearchTree.remove key t).1)])

/-- The call, with its answer. -/
def RbTree.call (t : RbTree K T) : Call K → Except Fault (RbTree K T × List (Call K × Option T))
  | .get key => do
    let v ← t.get key
    .ok (t, [(.get key, v)])
  | .remove key => do
    let (t, v) ← remove t key
    .ok (t, [(.remove key, v)])

end

namespace RbTree

open BinaryTree

section

variable [LinearOrder K] {t : RbTree K T} {s : Shape K T}

/-- Where a run of calls from the tree with the shape `s` has come to: the binary search tree has come to the same entries with the same
answers, and the nodes and the values that are gone are accounted for. -/
structure Ledger (s : Shape K T) (calls : List (Call K)) (t' : RbTree K T) (log : List (Call K × Option T)) (s' : Shape K T) : Prop where
  hung : Hung t' s'
  alike : Runs.exec (Runs.logged BinarySearchTree.call) (slot s, []) calls = .ok (slot s', log)
  cutOff : CutOff (returned log).length (ptrs s.inorder) (ptrs s'.inorder)
  vals : (returned log ++ s'.inorder.map (·.val)).Perm (s.inorder.map (·.val))

/-- One more call. -/
theorem Ledger.call {s s' : Shape K T} {calls : List (Call K)} {log : List (Call K × Option T)} (h : Ledger s calls t log s') (c : Call K) :
    ∃ t' log' s'', Runs.logged RbTree.call (t, log) c = .ok (t', log') ∧ Ledger s (calls ++ [c]) t' log' s'' := by
  have halike : ∀ {b : BinarySearchTree.Slot K T} {e : List (Call K × Option T)}, BinarySearchTree.call (slot s') c = .ok (b, e) →
      Runs.exec (Runs.logged BinarySearchTree.call) (slot s, []) (calls ++ [c]) = .ok (b, log ++ e) := by
    intro b e hcall
    refine Runs.exec_append.mpr ⟨_, h.alike, ?_⟩
    have hlogged : Runs.logged BinarySearchTree.call (slot s', log) c = .ok (b, log ++ e) := Runs.logged_eq_ok.mpr ⟨_, hcall, rfl⟩
    rw [Runs.exec_cons_ok hlogged, Runs.exec_nil]
  cases c with
  | get key =>
    refine ⟨t, log ++ [(.get key, BinarySearchTree.get key (slot s'))], s', ?_, h.hung, halike rfl, ?_, ?_⟩
    · refine Runs.logged_eq_ok.mpr ⟨(t, [(.get key, BinarySearchTree.get key (slot s'))]), ?_, rfl⟩
      simp [RbTree.call, h.hung.get]
    · rw [returned_append]
      simpa [returned] using h.cutOff
    · rw [returned_append]
      simpa [returned] using h.vals
  | remove key =>
    obtain ⟨t', s'', hrem, hung, hslot, hcut⟩ := h.hung.remove key
    have hvals := BinarySearchTree.remove_vals_perm key (slot s')
    rw [hslot, map_val_slot, map_val_slot] at hvals
    generalize hv : (BinarySearchTree.remove key (slot s')).1 = v at hrem hcut hvals
    have hret : returned (log ++ [(.remove key, v)]) = returned log ++ v.toList := by
      rw [returned_append]
      cases v <;> rfl
    refine ⟨t', log ++ [(.remove key, v)], s'', ?_, hung, halike ?_, ?_, ?_⟩
    · refine Runs.logged_eq_ok.mpr ⟨(t', [(.remove key, v)]), ?_, rfl⟩
      simp [RbTree.call, hrem]
    · rw [BinarySearchTree.call, hslot, hv]
    · rw [hret, List.length_append]
      exact h.cutOff.trans hcut
    · rw [hret, List.append_assoc]
      exact (hvals.append_left _).trans h.vals

/-- Every run of lookups and removals. -/
theorem Hung.ledger (h : Hung t s) (calls : List (Call K)) :
    ∃ t' log s', Runs.exec (Runs.logged RbTree.call) (t, []) calls = .ok (t', log) ∧ Ledger s calls t' log s' := by
  obtain ⟨⟨t', log⟩, hexec, s', hledger⟩ : ∃ r, Runs.exec (Runs.logged RbTree.call) (t, []) calls = .ok r ∧
      ∃ s', Ledger s calls r.1 r.2 s' := by
    refine Runs.progress_history (fun done (r : RbTree K T × List (Call K × Option T)) => ∃ s', Ledger s done r.1 r.2 s') ?_ ?_
      (Runs.Along.of_forall (P := fun _ _ => True) fun _ _ => trivial)
    · exact ⟨s, h, rfl, CutOff.refl _, List.Perm.refl _⟩
    · intro done c r _ hr _
      obtain ⟨s', hr⟩ := hr
      obtain ⟨t', log', s'', hcall, hledger⟩ := hr.call c
      exact ⟨(t', log'), hcall, s'', hledger⟩
  exact ⟨t', log, s', hexec, hledger⟩

/-- From every tree whose pointers hold a shape, whatever its colours, every sequence of lookups and removals is answered as by a binary
search tree with the same entries at the same places, and leaves the same entries at the same places. -/
theorem calls_refine_bst (hr : Represents t s) (calls : List (Call K)) :
    ∃ t' log s', Runs.exec (Runs.logged RbTree.call) (t, []) calls = .ok (t', log) ∧
      Runs.exec (Runs.logged BinarySearchTree.call) (slot s, []) calls = .ok (slot s', log) ∧ Hung t' s' := by
  obtain ⟨t', log, s', hexec, hledger⟩ := hr.hung.ledger calls
  exact ⟨t', log, s', hexec, hledger.alike, hledger.hung⟩

/-- The inserts of 1, 2 and 3, a removal that cuts off a red leaf, and one that makes a node its own parent. -/
theorem calls_refine_bst_three :
    ∃ t t' log s', Runs.exec allocStep (new : RbTree ℕ ℕ) [(true, 1, 10), (true, 2, 20), (true, 3, 30)] = .ok t ∧
      Runs.exec (Runs.logged RbTree.call) (t, []) [.remove 1, .get 3, .remove 3, .get 3] = .ok (t', log) ∧
      Runs.exec (Runs.logged BinarySearchTree.call) (.node ⟨2, 20⟩ (.node ⟨1, 10⟩ .nil .nil) (.node ⟨3, 30⟩ .nil .nil), [])
        [.remove 1, .get 3, .remove 3, .get 3] = .ok (slot s', log) ∧ Hung t' s' := by
  obtain ⟨t, ht, hshape⟩ : ∃ t, Runs.exec allocStep (new : RbTree ℕ ℕ) [(true, 1, 10), (true, 2, 20), (true, 3, 30)] = .ok t ∧
      t.shape = some (.node ⟨1, .black, 2, 20⟩ (.node ⟨0, .red, 1, 10⟩ .nil .nil) (.node ⟨2, .red, 3, 30⟩ .nil .nil)) := ⟨_, rfl, rfl⟩
  obtain ⟨s, hr, -⟩ := wellFormed_of_inserts (by decide) (by decide) ht
  obtain rfl := Option.some.inj (hr.shape_eq.symm.trans hshape)
  obtain ⟨t', log, s', hexec, halike, hung⟩ := calls_refine_bst hr [.remove 1, .get 3, .remove 3, .get 3]
  exact ⟨t, t', log, s', ht, hexec, halike, hung⟩

end

/-! ## `Drop` -/

/-- After every sequence of lookups and removals, `Drop` gives back each node that is still reached, once, children before their parents;
one node for each value that a removal returned is never given back; and the values that were returned and those that are dropped with
the nodes are the values that were stored. -/
theorem drop_after_calls [LinearOrder K] {t : RbTree K T} {s : Shape K T} (hr : Represents t s) (calls : List (Call K)) :
    ∃ t' log s' leaked, Runs.exec (Runs.logged RbTree.call) (t, []) calls = .ok (t', log) ∧ Hung t' s' ∧
      t'.drop = .ok (ptrs s'.postorder) ∧ (leaked ++ ptrs s'.postorder).Perm (ptrs s.inorder) ∧
      leaked.length = (returned log).length ∧ (returned log ++ s'.postorder.map (·.val)).Perm (s.inorder.map (·.val)) := by
  obtain ⟨t', log, s', hexec, hledger⟩ := hr.hung.ledger calls
  obtain ⟨leaked, hperm, hlen⟩ := hledger.cutOff
  refine ⟨t', log, s', leaked, hexec, hledger.hung, hledger.hung.drop, ?_, hlen, ?_⟩
  · exact ((s'.postorder_perm.map _).append_left leaked).trans hperm
  · exact ((s'.postorder_perm.map _).append_left _).trans hledger.vals

/-- Of the inserts of 1, 2 and 3 two are left by the removal, which returns one value. -/
theorem drop_after_calls_three :
    ∃ t t' log s' leaked, Runs.exec allocStep (new : RbTree ℕ ℕ) [(true, 1, 10), (true, 2, 20), (true, 3, 30)] = .ok t ∧
      Runs.exec (Runs.logged RbTree.call) (t, []) [.get 3, .remove 2] = .ok (t', log) ∧ Hung t' s' ∧
      t'.drop = .ok (ptrs s'.postorder) ∧ (leaked ++ ptrs s'.postorder).Perm [0, 1, 2] ∧
      leaked.length = (returned log).length ∧ (returned log ++ s'.postorder.map (·.val)).Perm [10, 20, 30] := by
  obtain ⟨t, ht, hshape⟩ : ∃ t, Runs.exec allocStep (new : RbTree ℕ ℕ) [(true, 1, 10), (true, 2, 20), (true, 3, 30)] = .ok t ∧
      t.shape = some (.node ⟨1, .black, 2, 20⟩ (.node ⟨0, .red, 1, 10⟩ .nil .nil) (.node ⟨2, .red, 3, 30⟩ .nil .nil)) := ⟨_, rfl, rfl⟩
  obtain ⟨s, hr, -⟩ := wellFormed_of_inserts (by decide) (by decide) ht
  obtain rfl := Option.some.inj (hr.shape_eq.symm.trans hshape)
  obtain ⟨t', log, s', leaked, hexec, hrest⟩ := drop_after_calls hr [.get 3, .remove 2]
  exact ⟨t, t', log, s', leaked, ht, hexec, hrest⟩

end RbTree

end MiriWeirdness
