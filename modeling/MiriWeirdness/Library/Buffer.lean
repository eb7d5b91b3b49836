import Mathlib.Data.List.Basic

/-!
# Bytes of memory

A buffer gives the byte at each offset. `write` puts a list of bytes at an offset and `slice` reads some number of them back. The two
rules for a write are `slice_write_self`, for the bytes written, and `slice_write_of_disjoint`, for those outside.
-/

namespace Buffer

/-- The bytes at all offsets. -/
abbrev Bytes := ℕ → UInt8

/-- Write the bytes from an offset on. -/
def write (m : Bytes) (off : ℕ) (bs : List UInt8) : Bytes :=
  fun i => if off ≤ i then (bs[i - off]?).getD (m i) else m i

/-- Read `n` bytes from an offset on. -/
def slice (m : Bytes) (off n : ℕ) : List UInt8 := (List.range n).map fun i => m (off + i)

variable {m m' : Bytes} {off off' n n' : ℕ} {bs : List UInt8}

@[simp] theorem slice_length : (slice m off n).length = n := by
  simp [slice]

/-- Slices are equal when their bytes are. -/
theorem slice_congr (h : ∀ i, off ≤ i → i < off + n → m' i = m i) : slice m' off n = slice m off n := by
  unfold slice
  refine List.map_congr_left fun i hi => h _ (Nat.le_add_right _ _) ?_
  rw [List.mem_range] at hi
  omega

/-- A slice is read in two parts. -/
theorem slice_add : slice m off (n + n') = slice m off n ++ slice m (off + n) n' := by
  unfold slice
  rw [List.range_add, List.map_append, List.map_map]
  congr 1
  refine List.map_congr_left fun i _ => ?_
  simp [Nat.add_assoc]

/-- The bytes outside those written. -/
theorem write_of_disjoint {i : ℕ} (h : i < off ∨ off + bs.length ≤ i) : write m off bs i = m i := by
  unfold write
  rcases h with h | h
  · rw [if_neg (by omega)]
  · rw [if_pos (by omega), List.getElem?_eq_none (by omega)]
    rfl

/-- The bytes written are read back. -/
theorem slice_write_self : slice (write m off bs) off bs.length = bs := by
  refine List.ext_getElem (by simp) fun i h₁ h₂ => ?_
  simp [slice, write, h₂]

/-- A slice that none of the written bytes is in. -/
theorem slice_write_of_disjoint (h : off' + n ≤ off ∨ off + bs.length ≤ off') :
    slice (write m off bs) off' n = slice m off' n := by
  refine slice_congr fun i h₁ h₂ => write_of_disjoint ?_
  omega

/-- One byte of a slice is written. -/
theorem slice_write_singleton {k : ℕ} {b : UInt8} : slice (write m (off + k) [b]) off n = (slice m off n).set k b := by
  refine List.ext_getElem (by simp) fun i h₁ h₂ => ?_
  rw [List.getElem_set]
  by_cases hik : k = i
  · subst hik
    simp [slice, write]
  · have hne : off + i < off + k ∨ off + k + [b].length ≤ off + i := by
      rw [List.length_singleton]
      omega
    rw [if_neg hik]
    simp only [slice, List.getElem_map, List.getElem_range]
    exact write_of_disjoint hne

/-- The parts of a slice with known contents. -/
theorem slice_append_iff {cs : List UInt8} :
    slice m off (bs.length + cs.length) = bs ++ cs ↔ slice m off bs.length = bs ∧ slice m (off + bs.length) cs.length = cs := by
  rw [slice_add]
  constructor
  · intro h
    exact List.append_inj h (by simp)
  · rintro ⟨h₁, h₂⟩
    rw [h₁, h₂]

end Buffer
