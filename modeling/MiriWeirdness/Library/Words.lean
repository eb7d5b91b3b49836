import Mathlib.Data.List.Range
import Mathlib.Data.Nat.Bitwise

/-!
# Checked arithmetic on machine words

The operations on words of any width, in a build that stops with a fault where the result leaves the word (`checks`) and in one that
wraps around there. A word that holds a number is `BitVec.ofNat`, and on such words the operations are those on the numbers as long as
these stay inside of the word. A loop over the bits tests them one by one against a shifted one.
-/

namespace Words

variable {ε : Type*} {w : ℕ} (fault : ε) (checks : Bool)

/-! ## Arithmetic -/

/-- Addition. -/
def add (a b : BitVec w) : Except ε (BitVec w) :=
  if checks = true ∧ 2 ^ w ≤ a.toNat + b.toNat then .error fault else .ok (a + b)

/-- Subtraction. -/
def sub (a b : BitVec w) : Except ε (BitVec w) := if checks = true ∧ a.toNat < b.toNat then .error fault else .ok (a - b)

/-- Shift to the left, by less than the width or else by what is left of the amount modulo the width. -/
def shl (a amount : BitVec w) : Except ε (BitVec w) :=
  if amount.toNat < w then .ok (a <<< amount.toNat) else if checks then .error fault else .ok (a <<< (amount.toNat % w))

variable {m n : ℕ}

theorem add_ofNat (h : m + n < 2 ^ w) : add fault checks (BitVec.ofNat w m) (BitVec.ofNat w n) = .ok (BitVec.ofNat w (m + n)) := by
  have hm : m % 2 ^ w = m := Nat.mod_eq_of_lt (by omega)
  have hn : n % 2 ^ w = n := Nat.mod_eq_of_lt (by omega)
  unfold add
  rw [BitVec.toNat_ofNat, BitVec.toNat_ofNat, hm, hn, if_neg (by omega), BitVec.ofNat_add]

theorem sub_ofNat (hn : m < 2 ^ w) (h : n ≤ m) :
    sub fault checks (BitVec.ofNat w m) (BitVec.ofNat w n) = .ok (BitVec.ofNat w (m - n)) := by
  have hm' : m % 2 ^ w = m := Nat.mod_eq_of_lt hn
  have hn' : n % 2 ^ w = n := Nat.mod_eq_of_lt (by omega)
  unfold sub
  rw [BitVec.toNat_ofNat, BitVec.toNat_ofNat, hm', hn', if_neg (by omega), BitVec.ofNat_sub_ofNat_of_le m n (by omega) h]

/-- A shift of one is a power of two. -/
theorem shl_one_ofNat (h : n < w) : shl fault checks 1#w (BitVec.ofNat w n) = .ok (BitVec.ofNat w (2 ^ n)) := by
  have hn : n % 2 ^ w = n := Nat.mod_eq_of_lt (lt_trans h Nat.lt_two_pow_self)
  have hone : 1 % 2 ^ w = 1 := Nat.mod_eq_of_lt (Nat.one_lt_two_pow (by omega))
  have hpow : 1#w <<< n = BitVec.ofNat w (2 ^ n) := by
    apply BitVec.eq_of_toNat_eq
    rw [BitVec.toNat_shiftLeft, BitVec.toNat_ofNat, BitVec.toNat_ofNat, hone, Nat.one_shiftLeft]
  unfold shl
  rw [BitVec.toNat_ofNat, hn, if_pos h, hpow]

/-- The zeros above the leading bit of a number. -/
theorem clz_ofNat (hpos : n ≠ 0) (h : n < 2 ^ w) : (BitVec.ofNat w n).clz = BitVec.ofNat w (w - 1 - n.log2) := by
  have hn : (BitVec.ofNat w n).toNat = n := by rw [BitVec.toNat_ofNat, Nat.mod_eq_of_lt h]
  have hw : 0 < w := by
    rcases Nat.eq_zero_or_pos w with rfl | hw
    · exact absurd h (by simpa using hpos)
    · exact hw
  have hne : BitVec.ofNat w n ≠ 0#w := by
    intro hzero
    rw [hzero] at hn
    exact hpos (by simpa using hn.symm)
  have hlow := BitVec.two_pow_sub_clz_le_toNat_of_ne_zero hw hne
  have hhigh := @BitVec.toNat_lt_two_pow_sub_clz w (BitVec.ofNat w n)
  rw [hn] at hlow hhigh
  have hlt : (BitVec.ofNat w n).clz.toNat < w := by
    have hclz := BitVec.clz_lt_iff_ne_zero.mpr hne
    rw [BitVec.lt_def] at hclz
    simpa [Nat.mod_eq_of_lt (Nat.lt_two_pow_self (n := w))] using hclz
  have hlog : n.log2 = w - 1 - (BitVec.ofNat w n).clz.toNat := by
    refine (Nat.log2_eq_iff hpos).mpr ⟨hlow, ?_⟩
    rw [show w - 1 - (BitVec.ofNat w n).clz.toNat + 1 = w - (BitVec.ofNat w n).clz.toNat by omega]
    exact hhigh
  apply BitVec.eq_of_toNat_eq
  rw [BitVec.toNat_ofNat, Nat.mod_eq_of_lt (lt_of_le_of_lt (by omega) (Nat.lt_two_pow_self (n := w)))]
  omega

/-! ## Loops over the bits -/

/-- A loop that keeps the last index of a kind, over a range in which this is the last. -/
theorem foldl_range_eq_some {p : ℕ → Prop} [DecidablePred p] {n k : ℕ} (hk : k < n) (hp : p k) (hlast : ∀ j, k < j → j < n → ¬p j) :
    (List.range n).foldl (fun ret i => if p i then some i else ret) none = some k := by
  induction n with
  | zero => omega
  | succ n ih =>
    rw [List.range_succ, List.foldl_append, List.foldl_cons, List.foldl_nil]
    rcases Nat.lt_succ_iff_lt_or_eq.mp hk with hlt | rfl
    · rw [if_neg (hlast n hlt n.lt_succ_self)]
      exact ih hlt fun j hj hn => hlast j hj (Nat.lt_succ_of_lt hn)
    · rw [if_pos hp]

/-- The test of a bit. -/
theorem and_one_shiftLeft_eq_zero {a : BitVec w} {k : ℕ} (hk : k < w) : a &&& 1#w <<< k = 0 ↔ a.getLsbD k = false := by
  have hpow : 1#w <<< k = BitVec.twoPow w k := rfl
  rw [hpow, BitVec.and_twoPow]
  cases hbit : a.getLsbD k with
  | false => simp
  | true =>
    have hne : BitVec.twoPow w k ≠ 0#w := by
      intro hzero
      have hself : (BitVec.twoPow w k).getLsbD k = true := by simp [hk]
      rw [hzero] at hself
      simp at hself
    simpa using hne

end Words
