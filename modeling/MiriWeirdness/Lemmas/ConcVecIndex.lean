import MiriWeirdness.ConcVec
import MiriWeirdness.Library.Slots

/-!
# The buckets as doubling ones

`index` computes the slot that stands at a position: on a word that holds a position before the last, each of its steps stays inside of
the word and leaves the number that the slot says. The scan of `most_sig_set_bit` finds the logarithm, which is the bucket.
-/

namespace MiriWeirdness

variable {w : ℕ}

/-! ## The scan -/

/-- The scan finds the logarithm. -/
theorem mostSigSetBitOf_ofNat {n : ℕ} (hpos : n ≠ 0) (h : n < 2 ^ w) : mostSigSetBitOf (BitVec.ofNat w n) = some n.log2 := by
  have hlog : n.log2 < w := (Nat.log2_lt hpos).mpr h
  unfold mostSigSetBitOf
  refine Words.foldl_range_eq_some hlog ?_ ?_
  · rw [ne_eq, Words.and_one_shiftLeft_eq_zero hlog, BitVec.getLsbD_ofNat, Nat.testBit_log2 hpos]
    simpa using hlog
  · intro j hj hlt
    have hclear : n.testBit j = false := Nat.testBit_lt_two_pow ((Nat.log2_lt hpos).mp hj)
    rw [not_not, Words.and_one_shiftLeft_eq_zero hlt, BitVec.getLsbD_ofNat, hclear, Bool.and_false]

/-! ## The slot -/

/-- The words that `index` gives back for a slot. -/
def slotWords (w : ℕ) (s : Slot) : BitVec w × BitVec w × BitVec w :=
  (BitVec.ofNat w s.bucket, BitVec.ofNat w (2 ^ s.bucket), BitVec.ofNat w s.place)

section

variable {s : Slot} (h : s.bucket < w)
include h

theorem position_lt_two_pow : s.position + 1 < 2 ^ w := by
  have := Slot.bucket_lt_iff.mp h
  omega

/-- `index` at the position of a slot. -/
theorem index_position (checks : Bool) : index checks (BitVec.ofNat w s.position) = .ok (slotWords w s) := by
  have hpos := position_lt_two_pow h
  have hbits : w < 2 ^ w := Nat.lt_two_pow_self
  have hsize : 2 ^ s.bucket < 2 ^ w := Nat.pow_lt_pow_right (by decide) h
  have hone : 1 ≤ 2 ^ s.bucket := Nat.two_pow_pos _
  have hplace : s.position - (2 ^ s.bucket - 1) = s.place := Nat.add_sub_cancel_left ..
  have hbefore : 2 ^ s.bucket - 1 ≤ s.position := Nat.le_add_right _ _
  have hused : w - (w - 1 - s.bucket) - 1 = s.bucket := by omega
  unfold index slotWords
  rw [Words.add_ofNat _ _ hpos, ok_bind, Words.clz_ofNat s.position.succ_ne_zero hpos, s.log2_position_add_one,
    Words.sub_ofNat _ _ hbits (by omega), ok_bind, Words.sub_ofNat _ _ (by omega) (by omega), ok_bind, hused, Words.shl_one_ofNat _ _ h,
    ok_bind, Words.sub_ofNat _ _ hsize hone, ok_bind, Words.sub_ofNat _ _ (by omega) hbefore, ok_bind, hplace]

end

end MiriWeirdness
