import MiriWeirdness.Lemmas.BstInsert
import MiriWeirdness.Theorems.BinarySearchTree

/-!
# The binary search tree in memory is the tree

Whatever is inserted, looked up and removed, and in whatever order, the pointers of `binary_search_tree.rs` make a tree: the calls return
and panic as those on the tree `BinarySearchTree` do. A removal leaks a node, and `Drop` gives back all others.
-/

namespace MiriWeirdness

variable {K T : Type}

namespace BinarySearchTree

/-- A call on the tree; an insert comes with the answer of the allocator. -/
inductive Request (K T : Type) where
  | insert (alloc : Bool) (key : K) (val : T)
  | get (key : K)
  | remove (key : K)
  deriving DecidableEq, Repr

/-- What the caller sees of a call: an insert returns nothing, or panics. -/
inductive Answer (T : Type) where
  | done
  | panicked
  | value (val : Option T)
  deriving DecidableEq, Repr

/-- The calls so far, with their answers. -/
abbrev Log (K T : Type) := List (Request K T × Answer T)

/-- The values that removals returned. -/
def returned (log : Log K T) : List T :=
  log.filterMap fun e =>
    match e with
    | (.remove _, .value val) => val
    | _ => none

/-- The values that inserts stored: those of the inserts that returned and whose allocation succeeded. -/
def stored (log : Log K T) : List T :=
  log.filterMap fun e =>
    match e with
    | (.insert true _ val, .done) => some val
    | _ => none

theorem returned_append (log log' : Log K T) : returned (log ++ log') = returned log ++ returned log' := List.filterMap_append

theorem stored_append (log log' : Log K T) : stored (log ++ log') = stored log ++ stored log' := List.filterMap_append

/-- An insert whose panic at a present key the caller catches. The panic comes before anything is written, so the tree is the one before. -/
def caught {σ : Type} (before : σ) : Except Fault σ → Except Fault (σ × Answer T)
  | .ok after => .ok (after, .done)
  | .error f => if f = .keyPresent then .ok (before, .panicked) else .error f

/-- The call, with its answer. -/
def serve [LinearOrder K] (t : Slot K T) : Request K T → Except Fault (Slot K T × Log K T)
  | .insert alloc key val => (caught t (insert alloc key val t)).map fun r => (r.1, [(.insert alloc key val, r.2)])
  | .get key => .ok (t, [(.get key, .value (get key t))])
  | .remove key => .ok ((remove key t).2, [(.remove key, .value (remove key t).1)])

end BinarySearchTree

namespace BstMemory

open BinaryTree BinarySearchTree

/-- The call, with its answer. -/
def serve [LinearOrder K] (t : BstMemory K T) : Request K T → Except Fault (BstMemory K T × Log K T)
  | .insert alloc key val => (caught t (t.insert alloc key val)).map fun r => (r.1, [(.insert alloc key val, r.2)])
  | .get key => (t.get key).map fun v => (t, [(.get key, .value v)])
  | .remove key => (t.remove key).map fun r => (r.1, [(.remove key, .value r.2)])

/-! ## One call -/

/-- What a call does to a tree with the shape `s`: the nodes that are added and the one that is cut off, and the values that are stored and
returned. -/
structure Served (t : BstMemory K T) (s : Shape K T) (r : BstMemory K T × Log K T) (s' : Shape K T) : Prop where
  linked : Linked r.1 s'
  nodes : ∃ new, (new ++ List.range t.heap.size).Perm (List.range r.1.heap.size) ∧
    RbTree.CutOff (returned r.2).length (new ++ ptrs s.inorder) (ptrs s'.inorder)
  vals : (returned r.2 ++ s'.inorder.map (·.entry.val)).Perm (stored r.2 ++ s.inorder.map (·.entry.val))

/-- A call that stores and returns nothing. -/
theorem Served.unchanged {t : BstMemory K T} {s : Shape K T} {log : Log K T} (h : Linked t s) (hret : returned log = [])
    (hstored : stored log = []) : Served t s (t, log) s := by
  refine ⟨h, ⟨[], List.Perm.refl _, ?_⟩, ?_⟩
  · rw [hret]
    exact RbTree.CutOff.refl _
  · rw [hret, hstored]

/-- Inserts that agree, after their panics are caught. -/
theorem caught_agree {σ τ : Type} {R : σ → τ → Prop} {x : Except Fault σ} {y : Except Fault τ} (h : Runs.Agree R x y) (s : σ) (t : τ) :
    Runs.Agree
      (fun r q => r.2 = .panicked ∧ q.2 = .panicked ∧ r.1 = s ∧ q.1 = t ∨ r.2 = .done ∧ q.2 = .done ∧ R r.1 q.1 ∧ y = .ok q.1)
      (caught s x : Except Fault (σ × Answer T)) (caught t y : Except Fault (τ × Answer T)) := by
  cases x with
  | ok s' =>
    cases y with
    | ok t' => exact Or.inr ⟨rfl, rfl, h, rfl⟩
    | error f => exact absurd h id
  | error f =>
    cases y with
    | ok t' => exact absurd h id
    | error f' =>
      obtain rfl : f = f' := h
      rw [caught, caught]
      by_cases hf : f = .keyPresent
      · rw [if_pos hf, if_pos hf]
        exact Or.inl ⟨rfl, rfl, rfl, rfl⟩
      · rw [if_neg hf, if_neg hf]
        exact rfl

section

variable [LinearOrder K] {t : BstMemory K T} {s : Shape K T}

/-- A call in memory is answered as the call on the tree of the same entries, and leaves its entries. -/
theorem Linked.serve (h : Linked t s) (req : Request K T) :
    Runs.Agree (fun r q => r.2 = q.2 ∧ ∃ s', Served t s r s' ∧ entries s' = q.1) (BstMemory.serve t req)
      (BinarySearchTree.serve (entries s) req) := by
  cases req with
  | insert alloc key val =>
    rw [BstMemory.serve, BinarySearchTree.serve]
    refine (caught_agree (h.insert alloc ⟨key, val⟩) t (entries s)).map fun r q hins => ?_
    obtain ⟨t', answer⟩ := r
    obtain ⟨u, answer'⟩ := q
    rcases hins with ⟨rfl, rfl, rfl, rfl⟩ | ⟨rfl, rfl, ⟨s', hlinked, rfl, hptrs, hsize⟩, hu⟩
    · refine ⟨rfl, s, Served.unchanged h rfl ?_, rfl⟩
      cases alloc <;> rfl
    · have hvals := (insert_perm hu).map (·.val)
      rw [List.map_append, map_val_entries, map_val_entries] at hvals
      refine ⟨rfl, s', ⟨hlinked, ⟨fresh t alloc, ?_, ⟨[], hptrs, rfl⟩⟩, ?_⟩, rfl⟩
      · dsimp only at hsize ⊢
        rw [hsize]
        cases alloc with
        | false => exact List.Perm.refl _
        | true => exact (List.perm_append_singleton _ _).symm.trans (List.Perm.of_eq List.range_succ.symm)
      · cases alloc <;> exact hvals
  | get key =>
    rw [BstMemory.serve, BinarySearchTree.serve, h.get]
    exact ⟨rfl, s, Served.unchanged h rfl rfl, rfl⟩
  | remove key =>
    obtain ⟨t', s', hrem, hlinked, hentries, hsize, hcut⟩ := h.remove key
    have hvals := BinarySearchTree.remove_vals_perm key (entries s)
    rw [hentries, map_val_entries, map_val_entries] at hvals
    rw [BstMemory.serve, BinarySearchTree.serve, hrem, hentries]
    generalize (BinarySearchTree.remove key (entries s)).1 = v at hcut hvals
    have hret : returned [((.remove key, .value v) : Request K T × Answer T)] = v.toList := by
      cases v <;> rfl
    refine ⟨rfl, s', ⟨hlinked, ⟨[], ?_, ?_⟩, ?_⟩, rfl⟩
    · dsimp only
      rw [hsize]
      exact List.Perm.refl _
    · dsimp only
      rw [hret]
      exact hcut
    · dsimp only
      rw [hret]
      exact hvals

/-- On the tree every call is answered: what an insert fails with is the panic that is caught. -/
theorem serve_ok (u : Slot K T) (req : Request K T) : ∃ q, BinarySearchTree.serve u req = .ok q := by
  cases req with
  | insert alloc key val =>
    rw [BinarySearchTree.serve]
    cases hu : BinarySearchTree.insert alloc key val u with
    | ok u' => exact ⟨_, rfl⟩
    | error f =>
      obtain rfl := (mem_keys_of_insert_error hu).2
      exact ⟨_, rfl⟩
  | get key => exact ⟨_, rfl⟩
  | remove key => exact ⟨_, rfl⟩

end

/-! ## Every run -/

/-- Where a run of calls on a new tree has come to: all nodes that were allocated and all values that were stored are accounted for. -/
structure Tally (r : BstMemory K T × Log K T) (s : Shape K T) : Prop where
  linked : Linked r.1 s
  nodes : RbTree.CutOff (returned r.2).length (List.range r.1.heap.size) (ptrs s.inorder)
  vals : (returned r.2 ++ s.inorder.map (·.entry.val)).Perm (stored r.2)

/-- The accounts after one more call. -/
theorem Tally.serve {r r' : BstMemory K T × Log K T} {s s' : Shape K T} (h : Tally r s) (h' : Served r.1 s r' s') :
    Tally (r'.1, r.2 ++ r'.2) s' := by
  refine ⟨h'.linked, ?_, ?_⟩
  · obtain ⟨new, hnew, hcut⟩ := h'.nodes
    have hbefore : RbTree.CutOff (returned r.2).length (new ++ List.range r.1.heap.size) (new ++ ptrs s.inorder) := by
      simpa using h.nodes.append new []
    obtain ⟨cut, hperm, hlen⟩ := hbefore.trans hcut
    refine ⟨cut, hperm.trans hnew, ?_⟩
    rw [returned_append, List.length_append]
    exact hlen
  · rw [returned_append, stored_append]
    have hswap : (returned r.2 ++ (stored r'.2 ++ s.inorder.map (·.entry.val))).Perm
        (stored r'.2 ++ (returned r.2 ++ s.inorder.map (·.entry.val))) := by
      rw [← List.append_assoc, ← List.append_assoc]
      exact List.perm_append_comm.append_right _
    rw [List.append_assoc]
    refine (h'.vals.append_left _).trans (hswap.trans ?_)
    exact (h.vals.append_left _).trans List.perm_append_comm

/-- A run in memory and the same run on the tree have come to the same answers and the same entries. -/
def Beside (r : BstMemory K T × Log K T) (q : Slot K T × Log K T) : Prop := r.2 = q.2 ∧ ∃ s, Tally r s ∧ entries s = q.1

theorem beside_new : Beside ((new, []) : BstMemory K T × Log K T) (BinarySearchTree.new, []) :=
  ⟨rfl, .nil, ⟨⟨rfl, trivial, List.nodup_nil⟩, RbTree.CutOff.refl _, List.Perm.refl _⟩, rfl⟩

variable [LinearOrder K]

/-- One more call. -/
theorem Beside.serve {r : BstMemory K T × Log K T} {q : Slot K T × Log K T} (h : Beside r q) (req : Request K T) :
    Runs.Agree Beside (Runs.logged BstMemory.serve r req) (Runs.logged BinarySearchTree.serve q req) := by
  obtain ⟨hlog, s, htally, hentries⟩ := h
  unfold Runs.logged
  rw [← hentries]
  refine (htally.linked.serve req).map fun r' q' h' => ?_
  obtain ⟨hlog', s', hserved, hentries'⟩ := h'
  exact ⟨congrArg₂ (· ++ ·) hlog hlog', s', htally.serve hserved, hentries'⟩

/-- Every run of calls on a new tree, and the run on `BinarySearchTree`. -/
theorem tally_of_requests (requests : List (Request K T)) :
    ∃ t log s, Runs.exec (Runs.logged BstMemory.serve) (new, []) requests = .ok (t, log) ∧
      Runs.exec (Runs.logged BinarySearchTree.serve) (BinarySearchTree.new, []) requests = .ok (entries s, log) ∧ Tally (t, log) s := by
  have hstep : ∀ (q : Slot K T × Log K T) req, ∃ q', Runs.logged BinarySearchTree.serve q req = .ok q' := by
    intro q req
    obtain ⟨q', hq⟩ := serve_ok q.1 req
    exact ⟨_, Runs.logged_eq_ok.mpr ⟨q', hq, rfl⟩⟩
  obtain ⟨⟨u, log⟩, htree⟩ := Runs.exec_ok hstep (BinarySearchTree.new, []) requests
  have hagree := @Runs.exec_agree _ _ _ _ _ requests _ Beside _ (fun r q req h => h.serve req) _ beside_new
  obtain ⟨⟨t, log'⟩, hexec, hlog, s, htally, hentries⟩ := hagree.exists_left htree
  dsimp only at hlog hentries
  subst hlog hentries
  exact ⟨t, log', s, hexec, htree, htally⟩

/-- Every sequence of inserts, lookups and removals on a new tree, whatever the answers of the allocator, is answered in memory as by
`BinarySearchTree`, panics at the same inserts, which may be caught, and follows no dangling pointer; and after it the pointers lead through
a tree of the same entries, at distinct addresses. -/
theorem requests_refine (requests : List (Request K T)) :
    ∃ t log s, Runs.exec (Runs.logged BstMemory.serve) (new, []) requests = .ok (t, log) ∧
      Runs.exec (Runs.logged BinarySearchTree.serve) (BinarySearchTree.new, []) requests = .ok (entries s, log) ∧ Linked t s := by
  obtain ⟨t, log, s, hexec, htree, htally⟩ := tally_of_requests requests
  exact ⟨t, log, s, hexec, htree, htally.linked⟩

/-- After every sequence of inserts, lookups and removals, `Drop` gives back each node that is still reached, once, children before their
parents. Of all nodes that were allocated, those that it does not give back are as many as the values that removals returned; and the
values that were returned and those that are dropped with the nodes are the values that were stored. -/
theorem drop_after_requests (requests : List (Request K T)) :
    ∃ t log s leaked, Runs.exec (Runs.logged BstMemory.serve) (new, []) requests = .ok (t, log) ∧ Linked t s ∧
      t.drop = .ok (ptrs s.postorder) ∧ (leaked ++ ptrs s.postorder).Perm (List.range t.heap.size) ∧
      leaked.length = (returned log).length ∧ (returned log ++ s.postorder.map (·.entry.val)).Perm (stored log) := by
  obtain ⟨t, log, s, hexec, -, hlinked, ⟨leaked, hperm, hlen⟩, hvals⟩ := tally_of_requests requests
  refine ⟨t, log, s, leaked, hexec, hlinked, hlinked.drop, ?_, hlen, ?_⟩
  · exact ((s.postorder_perm.map _).append_left leaked).trans hperm
  · exact ((s.postorder_perm.map _).append_left _).trans hvals

/-- A removal below the root, and an insert that panics: of three nodes one is leaked. -/
example :
    (Runs.exec (Runs.logged BstMemory.serve) ((new : BstMemory ℕ ℕ), [])
      [.insert true 1 10, .insert true 2 20, .insert false 4 40, .insert true 3 30, .remove 3, .insert true 1 11]).toOption.map (fun r =>
        (r.1.drop, returned r.2, stored r.2)) = some (.ok [1, 0], [20], [10, 20, 30]) := by
  decide

end BstMemory

end MiriWeirdness
