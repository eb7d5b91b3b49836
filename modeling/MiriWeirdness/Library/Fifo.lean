import Mathlib.Data.List.Basic

/-!
# Queues

What a first-in first-out queue of values may be seen to do: `replay` takes the events of a run, in order, and gives the values left
in the queue, or nothing when an event could not have happened.
-/

namespace Fifo

variable {α : Type*} [DecidableEq α]

/-- An event of a run: a value is put in or turned away, a value is taken out, or the queue is found empty. Events that do not concern
the queue are `other`. -/
inductive Event (α : Type*) where
  | accepted (a : α)
  | rejected (a : α)
  | popped (a : α)
  | empty
  | other
  deriving DecidableEq, Repr

/-- The queue after an event, if it can happen. -/
def next (q : List α) : Event α → Option (List α)
  | .accepted a => some (q ++ [a])
  | .rejected _ => some q
  | .popped a =>
    match q with
    | [] => none
    | b :: q => if a = b then some q else none
  | .empty => if q = [] then some q else none
  | .other => some q

/-- The queue after a list of events, if they can happen. -/
def replay (q : List α) (es : List (Event α)) : Option (List α) := es.foldlM next q

/-- The events of a run and one more. -/
theorem replay_append_singleton {q q' : List α} {es : List (Event α)} {e : Event α} (h : replay q es = some q') :
    replay q (es ++ [e]) = next q' e := by
  unfold replay at h ⊢
  rw [List.foldlM_append, h]
  simp

/-! ## What was put in and what was taken out -/

/-- The values put in, in order. -/
def given (es : List (Event α)) : List α := es.filterMap fun
  | .accepted a => some a
  | _ => none

/-- The values taken out, in order. -/
def taken (es : List (Event α)) : List α := es.filterMap fun
  | .popped a => some a
  | _ => none

/-- Values put in one after another. -/
theorem replay_append_accepted {ι : Type*} {q q' : List α} {es : List (Event α)} (h : replay q es = some q') (f : ι → α)
    (is : List ι) : replay q (es ++ is.map fun i => Event.accepted (f i)) = some (q' ++ is.map f) := by
  induction is generalizing es q' with
  | nil =>
    rw [List.map_nil, List.map_nil, List.append_nil, List.append_nil]
    exact h
  | cons i is ih =>
    have hnext : replay q (es ++ [.accepted (f i)]) = some (q' ++ [f i]) := replay_append_singleton h
    rw [List.map_cons, List.map_cons, List.append_cons, ih hnext, List.append_assoc, List.singleton_append]

section

omit [DecidableEq α]

@[simp] theorem taken_append (es fs : List (Event α)) : taken (es ++ fs) = taken es ++ taken fs := List.filterMap_append

@[simp] theorem given_append (es fs : List (Event α)) : given (es ++ fs) = given es ++ given fs := List.filterMap_append

theorem taken_accepted {ι : Type*} (f : ι → α) (is : List ι) : taken (is.map fun i => Event.accepted (f i)) = [] := by
  simp [taken, List.filterMap_map]

end

/-- An event that can happen. -/
theorem append_given_of_next {q q' : List α} {e : Event α} (h : next q e = some q') : q ++ given [e] = taken [e] ++ q' := by
  cases e with
  | accepted a =>
    cases h
    rfl
  | rejected a | other =>
    cases h
    exact List.append_nil q
  | empty =>
    obtain ⟨rfl, rfl⟩ : q = [] ∧ q = q' := by simpa [next] using h
    rfl
  | popped a =>
    cases q with
    | nil => cases h
    | cons b q =>
      obtain ⟨rfl, rfl⟩ : a = b ∧ q = q' := by simpa [next] using h
      exact List.append_nil (a :: q)

/-- What was in the queue and was put in is what was taken out and is left, in order. -/
theorem append_given_of_replay {q q' : List α} {es : List (Event α)} (h : replay q es = some q') : q ++ given es = taken es ++ q' := by
  induction es generalizing q with
  | nil =>
    obtain rfl : q = q' := Option.some.inj h
    exact List.append_nil q
  | cons e es ih =>
    obtain ⟨q₁, hnext, hrest⟩ : ∃ q₁, next q e = some q₁ ∧ replay q₁ es = some q' := by
      simpa [replay, List.foldlM_cons, Option.bind_eq_some_iff] using h
    have hgiven : given (e :: es) = given [e] ++ given es := given_append [e] es
    have htaken : taken (e :: es) = taken [e] ++ taken es := taken_append [e] es
    rw [hgiven, htaken, ← List.append_assoc, append_given_of_next hnext, List.append_assoc, ih hrest, List.append_assoc]

end Fifo
