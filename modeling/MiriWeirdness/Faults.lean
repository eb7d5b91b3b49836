import Mathlib.Algebra.Order.Ring.Nat

/-!
# How a call fails to return

The modelled functions return in `Except Fault`. A panic of the source carries its message. The other faults are what the source
does not survive either: a dereference of a pointer to no node, a write outside of an allocation, an arithmetic overflow, a wait
that no other thread ends. A loop of the source is run with fuel, and running out of it is a fault of its own.
-/

namespace MiriWeirdness

inductive Fault where
  | panic (msg : String)
  | dangling
  | outOfBounds
  | overflow
  | hang
  | outOfFuel
  deriving DecidableEq, Repr

/-- `TreeNode::insert`, in both trees, at a key that is already present. -/
def Fault.keyPresent : Fault := .panic "Tried to insert a key that is already present"

@[simp] theorem ok_bind {α β : Type} (a : α) (f : α → Except Fault β) : (Except.ok a >>= f) = f a := rfl

@[simp] theorem error_bind {α β : Type} (e : Fault) (f : α → Except Fault β) : (Except.error e >>= f) = .error e := rfl

/-- A call that returns after another returned. -/
theorem bind_eq_ok {α β : Type} {x : Except Fault α} {f : α → Except Fault β} {b : β} :
    (x >>= f) = .ok b ↔ ∃ a, x = .ok a ∧ f a = .ok b := by
  cases x with
  | ok a => simp
  | error e => simp

end MiriWeirdness
