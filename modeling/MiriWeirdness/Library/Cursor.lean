import Mathlib.Data.List.InsertIdx
import Mathlib.Data.List.Perm.Basic

/-!
# A list with a cursor

A list that is edited at a position of it. The cursor can go back to the first item, go on to the next, and insert an item after its own,
to which it then goes. Whatever it does, the items stay in their order and those that were inserted are added.
-/

/-- A list and the position of one of its items. -/
structure Cursor (α : Type*) where
  items : List α
  pos : ℕ
  inside : pos < items.length

namespace Cursor

variable {α : Type*}

/-- What can be done with a cursor. -/
inductive Move (α : Type*) where
  | first
  | next
  | insert (a : α)

/-- The items that are added. -/
def Move.added : Move α → List α
  | .first | .next => []
  | .insert a => [a]

/-- One move; there is none beyond the last item. -/
def step (c : Cursor α) : Move α → Cursor α
  | .first => { items := c.items, pos := 0, inside := Nat.lt_of_le_of_lt (Nat.zero_le c.pos) c.inside }
  | .next => if h : c.pos + 1 < c.items.length then { items := c.items, pos := c.pos + 1, inside := h } else c
  | .insert a =>
    { items := c.items.insertIdx (c.pos + 1) a
      pos := c.pos + 1
      inside := by
        rw [List.length_insertIdx_of_le_length c.inside]
        exact Nat.succ_lt_succ c.inside }

/-- Some moves, one after another. -/
def run (c : Cursor α) (moves : List (Move α)) : Cursor α := moves.foldl step c

@[simp] theorem items_step_first (c : Cursor α) : (c.step .first).items = c.items := rfl

@[simp] theorem items_step_next (c : Cursor α) : (c.step .next).items = c.items := by
  rw [step]
  split <;> rfl

@[simp] theorem items_step_insert (c : Cursor α) (a : α) : (c.step (.insert a)).items = c.items.insertIdx (c.pos + 1) a := rfl

/-- A move adds its item and loses none. -/
theorem items_step_perm (c : Cursor α) (m : Move α) : (c.step m).items.Perm (c.items ++ m.added) := by
  cases m with
  | first => simp [Move.added]
  | next => simp [Move.added]
  | insert a =>
    rw [items_step_insert]
    exact (List.perm_insertIdx a c.items c.inside).trans (List.perm_append_singleton a c.items).symm

/-- Some moves add their items and lose none. -/
theorem items_run_perm (c : Cursor α) (moves : List (Move α)) : (c.run moves).items.Perm (c.items ++ moves.flatMap Move.added) := by
  induction moves generalizing c with
  | nil => simp [run]
  | cons m moves ih =>
    have hrest := ih (c.step m)
    have hstep := (c.items_step_perm m).append_right (moves.flatMap Move.added)
    rw [List.flatMap_cons, ← List.append_assoc]
    exact hrest.trans hstep

end Cursor
