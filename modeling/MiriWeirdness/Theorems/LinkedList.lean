import MiriWeirdness.Lemmas.LinkedList
import MiriWeirdness.Library.Runs

/-!
# Insertion into a linked list

`LinkedListNode::insert` calls `Option::insert` on a `next` that is there, and with the old node drops all that were behind it. A list
whose caller inserts at the last node only keeps all of its values.
-/

namespace MiriWeirdness.LinkedList

open Session

variable {T : Type}

/-- Every run of calls can be made. -/
theorem exists_exec (list : LinkedList T) (calls : List (Call T)) : ∃ s, Runs.exec Session.step (start list) calls = .ok s := by
  obtain ⟨s, hs, -⟩ := Runs.progress_history (fun _ s => Valid s) (valid_start list)
    (fun _ call s _ h _ => h.step_ok call) (Runs.Along.of_forall (P := fun _ _ => True) fun _ _ => trivial)
  exact ⟨s, hs⟩

/-- A run keeps what it should exactly when it inserts at the last node only. -/
theorem along_keeps_iff (list : LinkedList T) (calls : List (Call T)) :
    Runs.Along Session.step Keeps (start list) calls ↔ Runs.Along Session.step AtLast (start list) calls :=
  Runs.Along.iff_of_invariant Valid (fun _ _ _ h hs => h.step hs) (fun _ _ h => h.keeps_iff) (valid_start list)

/-- A run that inserts at the last node only is one of the cursor. -/
theorem shows_run {list : LinkedList T} {calls : List (Call T)} {s : Session T} (hlast : Runs.Along Session.step AtLast (start list) calls)
    (hs : Runs.exec Session.step (start list) calls = .ok s) :
    s.Shows ((cursor list).run (calls.map Call.move)) := by
  refine Runs.invariant_history (fun done s => Shows s ((cursor list).run (done.map Call.move))) ⟨rfl, rfl⟩ ?_ hlast hs
  intro done call s s' _ h hcall hstep
  rw [List.map_append, Cursor.run, List.foldl_append]
  exact h.step hcall hstep

/-- A run that inserts at the last node only leaves a list of the initial values and the inserted ones. -/
theorem values_perm {list : LinkedList T} {calls : List (Call T)} {s : Session T}
    (hlast : Runs.Along Session.step AtLast (start list) calls) (hs : Runs.exec Session.step (start list) calls = .ok s) :
    s.list.values.Perm (list.values ++ calls.flatMap Call.inserted) := by
  have hperm := (cursor list).items_run_perm (calls.map Call.move)
  rw [← (shows_run hlast hs).values, List.flatMap_map] at hperm
  exact hperm

/-- Whatever the calls on a list and on the nodes of it: each can be made; they all put their values behind the nodes they are made on, in
front of all that followed, exactly when those of `insert` are made on nodes with no next one; and after a run in which they are,
`contains` finds the initial values and the inserted ones, and no other. -/
theorem insert_keeps_iff [BEq T] (list : LinkedList T) (calls : List (Call T)) :
    ∃ s, Runs.exec Session.step (start list) calls = .ok s ∧
      (Runs.Along Session.step Keeps (start list) calls ↔ Runs.Along Session.step AtLast (start list) calls) ∧
      (Runs.Along Session.step AtLast (start list) calls →
        ∀ w, s.list.contains w = true ↔ ∃ v ∈ list.values ++ calls.flatMap Call.inserted, (v == w) = true) := by
  obtain ⟨s, hs⟩ := exists_exec list calls
  refine ⟨s, hs, along_keeps_iff list calls, fun hlast w => ?_⟩
  have hperm := values_perm hlast hs
  rw [contains_iff]
  constructor
  · intro ⟨v, hv, heq⟩
    exact ⟨v, hperm.mem_iff.mp hv, heq⟩
  · intro ⟨v, hv, heq⟩
    exact ⟨v, hperm.mem_iff.mpr hv, heq⟩

/-- `list.insert(56).insert(34)` on a list of one. -/
theorem insert_keeps_chain : ∃ s, Runs.exec Session.step (start (new 0)) [.insert 56, .insert 34] = .ok s ∧ s.list.contains 56 = true := by
  obtain ⟨s, hs, -, hcontains⟩ := insert_keeps_iff (new 0) [.insert 56, .insert 34]
  exact ⟨s, hs, (hcontains (by decide) 56).mpr ⟨56, by decide, rfl⟩⟩

/-- Two insertions at the first node: the second one drops the value of the first. -/
theorem insert_drops_tail : ∃ s, Runs.exec Session.step (start (new 1)) [.insert 2, .list, .insert 3] = .ok s ∧
    s.list.values = [1, 3] ∧ s.list.contains 2 = false ∧ ¬Runs.Along Session.step Keeps (start (new 1)) [.insert 2, .list, .insert 3] := by
  refine ⟨_, rfl, rfl, rfl, fun h => ?_⟩
  have hkept : [1, 3] = [1, 3, 2] := (((h.2 _ rfl).2 _ rfl).1 _ rfl)
  exact absurd hkept (by decide)

end MiriWeirdness.LinkedList
