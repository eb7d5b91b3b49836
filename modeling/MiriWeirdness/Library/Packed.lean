import Mathlib.Algebra.Order.Ring.Nat
import Mathlib.Data.Nat.Bitwise
import Mathlib.Tactic.Ring

/-!
# Three counters in one word

`pack a b h l f` is the number with `h` in its lowest `a` bits, `l` in the next `b` and `f` above. The fields can be read back while
each fits; sums of packed numbers are packed sums of the fields, whether they fit or not, which is what an addition on the whole word
computes. A field that overflows carries into the next.
-/

namespace Packed

variable {a b c h l f h' l' f' : ℕ}

/-- The counters `h`, `l` and `f` packed into one number, from the lowest. -/
def pack (a b h l f : ℕ) : ℕ := h + 2 ^ a * (l + 2 ^ b * f)

/-- Adding packed numbers adds the fields. -/
theorem pack_add : pack a b h l f + pack a b h' l' f' = pack a b (h + h') (l + l') (f + f') := by
  unfold pack
  ring

/-- The lowest field. -/
theorem pack_mod (hh : h < 2 ^ a) : pack a b h l f % 2 ^ a = h := by
  unfold pack
  rw [Nat.add_mul_mod_self_left, Nat.mod_eq_of_lt hh]

theorem pack_div (hh : h < 2 ^ a) : pack a b h l f / 2 ^ a = l + 2 ^ b * f := by
  unfold pack
  rw [Nat.add_mul_div_left _ _ (Nat.two_pow_pos a), Nat.div_eq_of_lt hh, Nat.zero_add]

/-- The middle field. -/
theorem pack_div_mod (hh : h < 2 ^ a) (hl : l < 2 ^ b) : pack a b h l f / 2 ^ a % 2 ^ b = l := by
  rw [pack_div hh, Nat.add_mul_mod_self_left, Nat.mod_eq_of_lt hl]

/-- The highest field. -/
theorem pack_div_div (hh : h < 2 ^ a) (hl : l < 2 ^ b) : pack a b h l f / 2 ^ (a + b) = f := by
  rw [Nat.pow_add, ← Nat.div_div_eq_div_mul, pack_div hh, Nat.add_mul_div_left _ _ (Nat.two_pow_pos b), Nat.div_eq_of_lt hl,
    Nat.zero_add]

/-- Fields that fit make a number that fits. -/
theorem pack_lt (hh : h < 2 ^ a) (hl : l < 2 ^ b) (hf : f < 2 ^ c) : pack a b h l f < 2 ^ (a + b + c) := by
  have hmid : l + 2 ^ b * f < 2 ^ (b + c) := by
    rw [Nat.pow_add]
    have : 2 ^ b * (f + 1) ≤ 2 ^ b * 2 ^ c := Nat.mul_le_mul_left _ hf
    rw [Nat.mul_add, Nat.mul_one] at this
    omega
  have : 2 ^ a * (l + 2 ^ b * f + 1) ≤ 2 ^ a * 2 ^ (b + c) := Nat.mul_le_mul_left _ hmid
  rw [Nat.mul_add, Nat.mul_one] at this
  unfold pack
  rw [Nat.add_assoc, Nat.pow_add 2 a]
  omega

/-- Fields that fit are packed by shifts and bitwise or. -/
theorem or_shiftLeft (hh : h < 2 ^ a) (hl : l < 2 ^ b) : h ||| l <<< a ||| f <<< (a + b) = pack a b h l f := by
  have hlow : h + l <<< a < 2 ^ (a + b) := by
    rw [Nat.shiftLeft_eq, Nat.pow_add]
    have : 2 ^ a * (l + 1) ≤ 2 ^ a * 2 ^ b := Nat.mul_le_mul_left _ hl
    rw [Nat.mul_add, Nat.mul_one] at this
    rw [Nat.mul_comm l]
    omega
  have h₁ : h ||| l <<< a = h + l <<< a := by
    rw [Nat.lor_comm, ← Nat.shiftLeft_add_eq_or_of_lt hh, Nat.add_comm]
  rw [h₁, Nat.lor_comm, ← Nat.shiftLeft_add_eq_or_of_lt hlow, Nat.add_comm, Nat.shiftLeft_eq, Nat.shiftLeft_eq]
  unfold pack
  ring

end Packed
