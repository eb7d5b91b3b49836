import MiriWeirdness.Library.Cursor
import MiriWeirdness.LinkedList

/-!
# What the calls on a linked list do

The list as the row of its values and the reference as a position in it. `insert` leaves the values up to the node it is called on and the
new one; so at the last node, and only there, it is the insertion of a list with a cursor.
-/

namespace MiriWeirdness

variable {T : Type}

namespace LinkedListNode

/-- The induction on a list: its last node, and a node in front of others. -/
@[induction_eliminator] theorem induction {motive : LinkedListNode T → Prop} (last : ∀ val, motive { val, next := none })
    (cons : ∀ val next, motive next → motive { val, next := some next }) : ∀ self, motive self
  | { val, next := none } => last val
  | { val, next := some next } => cons val next (induction last cons next)

@[simp] theorem values_last (val : T) : values { val, next := none } = [val] := rfl

@[simp] theorem values_cons (val : T) (next : LinkedListNode T) : values { val, next := some next } = val :: next.values := rfl

/-- `contains` finds the values that equal the one it looks for. -/
theorem contains_iff [BEq T] (self : LinkedListNode T) (val : T) : self.contains val = true ↔ ∃ v ∈ self.values, (v == val) = true := by
  induction self with
  | last v =>
    unfold contains
    simp
  | cons v next ih =>
    unfold contains
    rw [values_cons, List.exists_mem_cons_iff, ← ih]
    split
    · rename_i heq
      exact iff_of_true rfl (Or.inl heq)
    · rename_i hne
      exact (or_iff_right hne).symm

/-- `insert` leaves its node and the new one. -/
theorem values_insert (self : LinkedListNode T) (val : T) : (self.insert val).values = [self.val, val] := by
  unfold insert
  split <;> rfl

theorem values_ne_nil (self : LinkedListNode T) : self.values ≠ [] := by
  cases self with
  | mk val next => cases next <;> simp

theorem next_eq_none_iff (self : LinkedListNode T) : self.next = none ↔ self.values.length = 1 := by
  cases self with
  | mk val next =>
    cases next with
    | none => simp
    | some next =>
      have := List.length_pos_of_ne_nil next.values_ne_nil
      simp only [values_cons, List.length_cons, reduceCtorEq, false_iff]
      omega

/-- A reference inside of the list points to a node, from which on the list is as it is behind that position. -/
theorem node?_of_lt {self : LinkedListNode T} {depth : ℕ} (h : depth < self.values.length) :
    ∃ node, self.node? depth = some node ∧ node.values = self.values.drop depth := by
  induction depth generalizing self with
  | zero => exact ⟨self, rfl, rfl⟩
  | succ depth ih =>
    cases self with
    | mk val next =>
      cases next with
      | none => simp at h
      | some next => exact ih (Nat.lt_of_succ_lt_succ h)

/-- A call of `insert` through a reference: the values behind its node are gone. -/
theorem modify_insert {self : LinkedListNode T} {depth : ℕ} (h : depth < self.values.length) (val : T) :
    ∃ node, self.modify (·.insert val) depth = .ok node ∧ node.values = self.values.take (depth + 1) ++ [val] := by
  induction depth generalizing self with
  | zero =>
    refine ⟨self.insert val, rfl, ?_⟩
    rw [values_insert]
    cases self with
    | mk v next => cases next <;> simp
  | succ depth ih =>
    cases self with
    | mk v next =>
      cases next with
      | none => simp at h
      | some next =>
        obtain ⟨node, hnode, hvalues⟩ := ih (Nat.lt_of_succ_lt_succ h)
        refine ⟨{ val := v, next := some node }, ?_, ?_⟩
        · simp only [modify, hnode, ok_bind]
        · rw [values_cons, hvalues, values_cons, List.take_succ_cons, List.cons_append]

end LinkedListNode

namespace LinkedList

/-- `contains` finds the values that equal the one it looks for. -/
theorem contains_iff [BEq T] (self : LinkedList T) (val : T) : self.contains val = true ↔ ∃ v ∈ self.values, (v == val) = true :=
  self.node.contains_iff val

/-- The move of a cursor that a call should be. -/
def Call.move : Call T → Cursor.Move T
  | .list => .first
  | .nextMut => .next
  | .insert val => .insert val

/-- The values that a call inserts. -/
def Call.inserted (call : Call T) : List T := call.move.added

namespace Session

variable {s s' : Session T} {c : Cursor T} {call : Call T} {val : T}

/-- The reference points to a node of the list. -/
def Valid (s : Session T) : Prop := s.depth < s.list.values.length

/-- The values of the list when a new one is put behind the node of the reference and all others stay. -/
def kept (s : Session T) : Call T → List T
  | .list | .nextMut => s.list.values
  | .insert val => s.list.values.insertIdx (s.depth + 1) val

/-- The call puts its value behind the node it is made on and keeps all nodes that followed. -/
def Keeps (s : Session T) (call : Call T) : Prop := ∀ s', s.step call = .ok s' → s'.list.values = s.kept call

/-- The node of the reference has no next one, when the call is one of `insert`. -/
def AtLast (s : Session T) : Call T → Prop
  | .list | .nextMut => True
  | .insert _ => ∀ node, s.node? = some node → node.next = none

instance (s : Session T) : (call : Call T) → Decidable (s.AtLast call)
  | .list | .nextMut => isTrue trivial
  | .insert _ =>
    match h : s.node? with
    | none => isTrue fun node hnode => by rw [h] at hnode; cases hnode
    | some node => decidable_of_iff (node.next.isNone = true) (by simp [AtLast, h])

theorem valid_start (list : LinkedList T) : Valid (start list) := List.length_pos_of_ne_nil list.node.values_ne_nil

/-- The reference points to a node, which is the last one when no values are behind it. -/
theorem Valid.exists_node (h : s.Valid) : ∃ node, s.node? = some node ∧ (node.next = none ↔ s.list.values.length = s.depth + 1) := by
  have hlt : s.depth < s.list.values.length := h
  obtain ⟨node, hnode, hvalues⟩ := LinkedListNode.node?_of_lt h
  refine ⟨node, hnode, ?_⟩
  have hlength : node.values.length = s.list.values.length - s.depth := by
    rw [hvalues]
    exact List.length_drop
  rw [node.next_eq_none_iff, hlength]
  omega

theorem Valid.atLast_insert_iff (h : s.Valid) : s.AtLast (.insert val) ↔ s.list.values.length = s.depth + 1 := by
  obtain ⟨node, hnode, hnext⟩ := h.exists_node
  rw [← hnext]
  constructor
  · intro hlast
    exact hlast node hnode
  · intro hnone node' hnode'
    obtain rfl : node = node' := Option.some.inj (hnode.symm.trans hnode')
    exact hnone

/-- `next_mut` goes on by one node, when there is one. -/
theorem Valid.step_nextMut (h : s.Valid) :
    s.step .nextMut = .ok (if s.depth + 1 < s.list.values.length then { s with depth := s.depth + 1 } else s) := by
  have hlt : s.depth < s.list.values.length := h
  obtain ⟨node, hnode, hlast⟩ := h.exists_node
  unfold step
  simp only [hnode]
  cases hnext : node.next with
  | none =>
    have := hlast.mp hnext
    rw [if_neg (by omega)]
  | some next =>
    have hmore : s.list.values.length ≠ s.depth + 1 := by
      intro hone
      rw [hlast.mpr hone] at hnext
      cases hnext
    rw [if_pos (by omega)]

/-- A call of `insert` on the list itself. -/
theorem step_start_insert (list : LinkedList T) (val : T) : (start list).step (.insert val) = .ok { list := list.insert val, depth := 1 } :=
  rfl

/-- `insert` drops the values behind the node of the reference, which then is the new one. -/
theorem Valid.step_insert (h : s.Valid) (val : T) : ∃ list : LinkedList T,
    s.step (.insert val) = .ok { list, depth := s.depth + 1 } ∧ list.values = s.list.values.take (s.depth + 1) ++ [val] := by
  obtain ⟨node, hnode, hvalues⟩ := LinkedListNode.modify_insert h val
  refine ⟨node.toList, ?_, hvalues⟩
  unfold step
  simp only [hnode, ok_bind]

/-- Every call can be made and leaves the reference at a node. -/
theorem Valid.step_ok (h : s.Valid) (call : Call T) : ∃ s', s.step call = .ok s' ∧ s'.Valid := by
  have hlt : s.depth < s.list.values.length := h
  cases call with
  | list => exact ⟨_, rfl, valid_start s.list⟩
  | nextMut =>
    refine ⟨_, h.step_nextMut, ?_⟩
    split
    · rename_i hmore
      exact hmore
    · exact h
  | insert val =>
    obtain ⟨list, hs, hvalues⟩ := h.step_insert val
    refine ⟨_, hs, ?_⟩
    have hlength : list.values.length = s.depth + 2 := by
      rw [hvalues, List.length_append, List.length_take_of_le hlt, List.length_singleton]
    unfold Valid
    dsimp only
    omega

theorem Valid.step (h : s.Valid) (hs : s.step call = .ok s') : s'.Valid := by
  obtain ⟨t, ht, hvalid⟩ := h.step_ok call
  obtain rfl : s' = t := Except.ok.inj (hs.symm.trans ht)
  exact hvalid

/-- A call keeps what it should exactly when it is not one of `insert` in front of other nodes. -/
theorem Valid.keeps_iff (h : s.Valid) : s.Keeps call ↔ s.AtLast call := by
  have hlt : s.depth < s.list.values.length := h
  cases call with
  | list =>
    refine iff_of_true (fun s' hs => ?_) trivial
    cases hs
    rfl
  | nextMut =>
    refine iff_of_true (fun s' hs => ?_) trivial
    rw [h.step_nextMut] at hs
    cases hs
    split <;> rfl
  | insert val =>
    obtain ⟨list, hs, hvalues⟩ := h.step_insert val
    rw [h.atLast_insert_iff]
    constructor
    · intro hkeeps
      have hkept : list.values = s.list.values.insertIdx (s.depth + 1) val := hkeeps _ hs
      have hlength := congrArg List.length hkept
      rw [hvalues, List.length_append, List.length_take_of_le hlt, List.length_singleton, List.length_insertIdx_of_le_length hlt] at hlength
      omega
    · intro hlast s' hs'
      rw [hs] at hs'
      cases hs'
      have hkept : s.kept (.insert val) = s.list.values.insertIdx s.list.values.length val := by rw [hlast]; rfl
      rw [hvalues, hkept, List.insertIdx_length_self, ← hlast, List.take_length]

/-! ## The cursor -/

/-- The cursor at the first node. -/
def cursor (list : LinkedList T) : Cursor T := { items := list.values, pos := 0, inside := valid_start list }

/-- The session is at the position of the cursor, in a list of its items. -/
structure Shows (s : Session T) (c : Cursor T) : Prop where
  values : s.list.values = c.items
  depth : s.depth = c.pos

theorem Shows.valid (h : s.Shows c) : s.Valid := by
  unfold Valid
  rw [h.values, h.depth]
  exact c.inside

/-- A call that is not one of `insert` in front of other nodes is the move of the cursor. -/
theorem Shows.step (h : s.Shows c) (hlast : s.AtLast call) (hs : s.step call = .ok s') : s'.Shows (c.step call.move) := by
  have hkeeps := h.valid.keeps_iff.mpr hlast s' hs
  cases call with
  | list =>
    cases hs
    exact ⟨h.values, rfl⟩
  | nextMut =>
    rw [h.valid.step_nextMut, h.values, h.depth] at hs
    cases hs
    unfold Call.move Cursor.step
    dsimp only
    split <;> exact ⟨h.values, by simp [h.depth]⟩
  | insert val =>
    obtain ⟨list, hs', -⟩ := h.valid.step_insert val
    rw [hs] at hs'
    cases hs'
    refine ⟨?_, congrArg (· + 1) h.depth⟩
    rw [hkeeps]
    unfold kept
    dsimp only
    rw [h.values, h.depth]
    rfl

end Session

end LinkedList

end MiriWeirdness
