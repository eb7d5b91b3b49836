import Mathlib.Data.Nat.Bitwise

/-!
# Buckets that double

A sequence kept in buckets of the sizes 1, 2, 4, and so on. A slot is a place in a bucket, and the buckets follow each other, so that
every position of the sequence is that of a slot. The slots come in the order of their buckets and, in a bucket, of their places.
-/

/-- A place inside of the bucket with `2 ^ bucket` of them. -/
@[ext] structure Slot where
  bucket : ℕ
  place : ℕ
  inside : place < 2 ^ bucket
  deriving DecidableEq

namespace Slot

/-- The position in the whole sequence: the buckets before this one have one place less than it has. -/
def position (s : Slot) : ℕ := 2 ^ s.bucket - 1 + s.place

/-- The slot at a position. -/
def ofPosition (n : ℕ) : Slot where
  bucket := (n + 1).log2
  place := n - (2 ^ (n + 1).log2 - 1)
  inside := by
    have hlow : 2 ^ (n + 1).log2 ≤ n + 1 := Nat.log2_self_le n.succ_ne_zero
    have hhigh := @Nat.lt_log2_self (n + 1)
    rw [Nat.pow_succ] at hhigh
    omega

variable {s t : Slot}

theorem position_add_one (s : Slot) : s.position + 1 = 2 ^ s.bucket + s.place := by
  have := Nat.two_pow_pos s.bucket
  unfold position
  omega

/-- The bucket is the logarithm of the position after this one. -/
theorem log2_position_add_one (s : Slot) : (s.position + 1).log2 = s.bucket := by
  have := s.inside
  rw [s.position_add_one]
  refine (Nat.log2_eq_iff (by omega)).mpr ?_
  rw [Nat.pow_succ]
  omega

theorem position_ofPosition (n : ℕ) : (ofPosition n).position = n := by
  have hlow : 2 ^ (n + 1).log2 ≤ n + 1 := Nat.log2_self_le n.succ_ne_zero
  have hpos := Nat.two_pow_pos (n + 1).log2
  unfold position ofPosition
  dsimp only
  omega

/-- The slots of the first buckets are the first positions. -/
theorem bucket_lt_iff {w : ℕ} : s.bucket < w ↔ s.position < 2 ^ w - 1 := by
  have hlog := @Nat.log2_lt (s.position + 1) w (Nat.succ_ne_zero _)
  rw [s.log2_position_add_one] at hlog
  rw [hlog]
  omega

/-- A slot of an earlier bucket comes earlier. -/
theorem position_lt_of_bucket_lt (h : s.bucket < t.bucket) : s.position < t.position := by
  have hs : s.position < 2 ^ t.bucket - 1 := bucket_lt_iff.mp h
  have ht : 2 ^ t.bucket - 1 ≤ t.position := Nat.le_add_right _ _
  exact lt_of_lt_of_le hs ht

/-- Positions grow with the bucket and, in a bucket, with the place. -/
theorem position_lt_iff : s.position < t.position ↔ s.bucket < t.bucket ∨ s.bucket = t.bucket ∧ s.place < t.place := by
  rcases lt_trichotomy s.bucket t.bucket with h | h | h
  · exact iff_of_true (position_lt_of_bucket_lt h) (Or.inl h)
  · have hs := s.position_add_one
    have ht := t.position_add_one
    rw [h] at hs
    constructor
    · intro hlt
      exact Or.inr ⟨h, by omega⟩
    · rintro (hlt | ⟨-, hlt⟩)
      · exact absurd h (ne_of_lt hlt)
      · omega
  · have hlt := position_lt_of_bucket_lt h
    constructor
    · intro hlt'
      omega
    · rintro (hb | ⟨hb, -⟩)
      · omega
      · omega

end Slot
