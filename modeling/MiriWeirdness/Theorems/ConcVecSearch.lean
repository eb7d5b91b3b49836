import Mathlib.Data.Nat.Find
import MiriWeirdness.ConcVec
import MiriWeirdness.Library.Runs

/-!
# The search for a free bit

The loop of `first_free_bit` is bounded by the width of `usize`, twice that of the word it searches. It stops inside of the word at the
lowest clear bit; when there is none it goes on past the end, where a build with overflow checks panics. So a thread in the claim loop of
`push` panics at the word of a full bucket and never sees that the bucket is full.
-/

namespace MiriWeirdness

variable {ι T : Type} {checks : Bool} {val : HalfUsize} {rounds i k : ℕ}

/-! ## What the loop does -/

/-- The amounts that the loop of `first_free_bit` shifts by, at `i` with so many rounds left. A panic ends it. -/
def shiftsFrom (checks : Bool) (val : HalfUsize) : ℕ → ℕ → List ℕ
  | 0, _ => []
  | rounds + 1, i =>
    i :: match halfBit checks i with
      | .ok bit => if val &&& bit = 0 then [] else shiftsFrom checks val rounds (i + 1)
      | .error _ => []

/-- The amounts that `first_free_bit` shifts by. -/
def shifts (checks : Bool) (val : HalfUsize) : List ℕ := shiftsFrom checks val 64 0

/-- The bit is the lowest clear one. -/
structure LowestClear (val : HalfUsize) (k : ℕ) : Prop where
  inside : k < 32
  clear : val.getLsbD k = false
  below : ∀ j < k, val.getLsbD j = true

theorem halfBit_of_lt (checks : Bool) (hi : i < 32) : halfBit checks i = .ok (1#32 <<< i) := if_pos hi

/-- The test of a bit inside of the word. -/
theorem and_halfBit_eq_zero (hi : i < 32) : val &&& 1#32 <<< i = 0 ↔ val.getLsbD i = false := Words.and_one_shiftLeft_eq_zero hi

/-- One round at a bit that is set. -/
theorem firstFreeFrom_of_set (hi : i < 32) (hset : val.getLsbD i = true) :
    firstFreeFrom checks val (rounds + 1) i = firstFreeFrom checks val rounds (i + 1) ∧
      shiftsFrom checks val (rounds + 1) i = i :: shiftsFrom checks val rounds (i + 1) := by
  have hne : val &&& 1#32 <<< i ≠ 0 := by
    rw [ne_eq, and_halfBit_eq_zero hi, hset]
    decide
  rw [firstFreeFrom, shiftsFrom, halfBit_of_lt checks hi, ok_bind]
  exact ⟨if_neg hne, by simp only [if_neg hne]⟩

/-- One round at a clear bit, the last. -/
theorem firstFreeFrom_of_clear (hi : i < 32) (hclear : val.getLsbD i = false) :
    firstFreeFrom checks val (rounds + 1) i = .ok (some (1#32 <<< i)) ∧ shiftsFrom checks val (rounds + 1) i = [i] := by
  have hzero : val &&& 1#32 <<< i = 0 := (and_halfBit_eq_zero hi).mpr hclear
  rw [firstFreeFrom, shiftsFrom, halfBit_of_lt checks hi, ok_bind]
  exact ⟨if_pos hzero, by simp only [if_pos hzero]⟩

/-- From a bit up to which all are set, the loop ends at the lowest clear one. -/
theorem LowestClear.firstFreeFrom (h : LowestClear val k) (hi : i ≤ k) (hrounds : k < i + rounds) :
    firstFreeFrom checks val rounds i = .ok (some (1#32 <<< k)) ∧ ∀ n ∈ shiftsFrom checks val rounds i, n < 32 := by
  have hinside := h.inside
  induction rounds generalizing i with
  | zero => omega
  | succ rounds ih =>
    rcases Nat.eq_or_lt_of_le hi with rfl | hlt
    · obtain ⟨hfree, hshifts⟩ := @firstFreeFrom_of_clear checks val rounds i h.inside h.clear
      rw [hfree, hshifts]
      refine ⟨rfl, fun n hn => ?_⟩
      rw [List.mem_singleton.mp hn]
      exact h.inside
    · obtain ⟨hfree, hshifts⟩ := @firstFreeFrom_of_set checks val rounds i (by omega) (h.below i hlt)
      obtain ⟨hrest, hin⟩ := ih (i := i + 1) (by omega) (by omega)
      rw [hfree, hshifts]
      refine ⟨hrest, fun n hn => ?_⟩
      rcases List.mem_cons.mp hn with rfl | hn
      · omega
      · exact hin n hn

/-- A word with no clear bit lets the loop shift by its width. -/
theorem width_mem_shiftsFrom (hfull : ∀ k < 32, val.getLsbD k = true) (hi : i ≤ 32) (hrounds : 32 < i + rounds) :
    32 ∈ shiftsFrom checks val rounds i := by
  induction rounds generalizing i with
  | zero => omega
  | succ rounds ih =>
    rcases Nat.eq_or_lt_of_le hi with rfl | hlt
    · exact List.mem_cons_self
    · obtain ⟨-, hshifts⟩ := @firstFreeFrom_of_set checks val rounds i hlt (hfull i hlt)
      rw [hshifts]
      exact List.mem_cons_of_mem _ (ih hlt (by omega))

/-- In a build with overflow checks the loop panics exactly when it shifts by the width of the word or more. -/
theorem firstFreeFrom_panics_iff : firstFreeFrom true val rounds i = .error .overflow ↔ ∃ n ∈ shiftsFrom true val rounds i, 32 ≤ n := by
  induction rounds generalizing i with
  | zero => simp [firstFreeFrom, shiftsFrom]
  | succ rounds ih =>
    by_cases hi : i < 32
    · cases hbit : val.getLsbD i with
      | false =>
        obtain ⟨hfree, hshifts⟩ := @firstFreeFrom_of_clear true val rounds i hi hbit
        rw [hfree, hshifts]
        simpa using hi
      | true =>
        obtain ⟨hfree, hshifts⟩ := @firstFreeFrom_of_set true val rounds i hi hbit
        rw [hfree, hshifts, ih, List.exists_mem_cons_iff]
        exact (or_iff_right (by omega)).symm
    · have herror : halfBit true i = .error .overflow := if_neg hi
      rw [firstFreeFrom, shiftsFrom, herror]
      exact iff_of_true rfl ⟨i, List.mem_cons_self, by omega⟩

/-! ## When the search is right -/

theorem eq_allOnes_iff : val = BitVec.allOnes 32 ↔ ∀ k < 32, val.getLsbD k = true := by
  constructor
  · intro h k hk
    rw [h, BitVec.getLsbD_allOnes]
    exact decide_eq_true hk
  · intro h
    apply BitVec.eq_of_getLsbD_eq
    intro k hk
    rw [h k hk, BitVec.getLsbD_allOnes]
    exact (decide_eq_true hk).symm

/-- A word that is not full has a lowest clear bit. -/
theorem exists_lowestClear (h : val ≠ BitVec.allOnes 32) : ∃ k, LowestClear val k := by
  have hclear : ∃ k, k < 32 ∧ val.getLsbD k = false := by
    rw [ne_eq, eq_allOnes_iff] at h
    push Not at h
    obtain ⟨k, hk, hne⟩ := h
    exact ⟨k, hk, by simpa using hne⟩
  obtain ⟨hk, hbit⟩ := Nat.find_spec hclear
  refine ⟨Nat.find hclear, hk, hbit, fun j hj => ?_⟩
  by_contra hset
  exact Nat.find_min hclear hj ⟨hj.trans hk, by simpa using hset⟩

/-- What the search should do: give back the lowest power of two whose bit is clear, nothing exactly when all bits are set, and shift
only inside of the word. -/
structure SearchesWord (checks : Bool) (val : HalfUsize) : Prop where
  found : ∀ bit, firstFreeBit checks val = .ok (some bit) ↔ ∃ k, LowestClear val k ∧ bit = 1#32 <<< k
  full : firstFreeBit checks val = .ok none ↔ ∀ k < 32, val.getLsbD k = true
  inside : ∀ n ∈ shifts checks val, n < 32

/-- What the claim loop of `push` should do with a word: the thread goes on, and leaves the loop exactly when the bucket is full. -/
def ClaimLoopGoesOn (ι T : Type) [DecidableEq ι] (checks : Bool) (val : HalfUsize) : Prop :=
  ∀ (s : ConcVec.Threads ι T) (i : ι) (answer : Option ConcVec.Ptr) (x : T) (newMeta : ConcVec.Ptr) (w : Usize),
    s.pc i = .searching x newMeta → s.mem newMeta = some (.word w) → present w = val →
      ∃ s', s.advance checks i answer = .ok (s', []) ∧ s'.pc i ≠ .panicked ∧ (s'.pc i = .called x ↔ ∀ k < 32, val.getLsbD k = true)

/-- A word with a clear bit is not full. -/
theorem LowestClear.not_full (h : LowestClear val k) : ¬∀ k < 32, val.getLsbD k = true := by
  intro hfull
  have hset := hfull k h.inside
  rw [h.clear] at hset
  cases hset

theorem LowestClear.unique {l : ℕ} (h : LowestClear val k) (h' : LowestClear val l) : k = l := by
  rcases lt_trichotomy k l with hlt | heq | hlt
  · exact absurd (h'.below k hlt) (by rw [h.clear]; decide)
  · exact heq
  · exact absurd (h.below l hlt) (by rw [h'.clear]; decide)

theorem LowestClear.searchesWord (h : LowestClear val k) : SearchesWord checks val := by
  have hinside := h.inside
  obtain ⟨hfree, hshifts⟩ : firstFreeBit checks val = .ok (some (1#32 <<< k)) ∧ ∀ n ∈ shifts checks val, n < 32 :=
    h.firstFreeFrom (Nat.zero_le k) (by omega)
  refine ⟨fun bit => ?_, ?_, hshifts⟩
  · rw [hfree]
    constructor
    · intro heq
      cases heq
      exact ⟨k, h, rfl⟩
    · intro ⟨l, hl, hbit⟩
      rw [hbit, hl.unique h]
  · rw [hfree]
    constructor
    · intro heq
      cases heq
    · intro hfull
      exact absurd hfull h.not_full

theorem LowestClear.claimLoopGoesOn [DecidableEq ι] (h : LowestClear val k) : ClaimLoopGoesOn ι T checks val := by
  intro s i answer x newMeta w hpc hmem hval
  have hfree : firstFreeBit checks (present w) = .ok (some (1#32 <<< k)) := by
    rw [hval, h.searchesWord.found]
    exact ⟨k, h, rfl⟩
  refine ⟨s.goto i (.claiming x newMeta (1#32 <<< k)), ?_, ?_, ?_⟩
  · unfold ConcVec.Threads.advance
    simp only [hpc, ConcVec.Threads.load, hmem, ok_bind, hfree]
  · simp [ConcVec.Threads.goto]
  · constructor
    · intro hcalled
      simp [ConcVec.Threads.goto] at hcalled
    · intro hfull
      exact absurd hfull h.not_full

/-- The search does what it should, and with it the claim loop, exactly at the words with a clear bit: at the word of a full bucket it
shifts by the width of the word, in a build with overflow checks or without. -/
theorem searchesWord_iff [DecidableEq ι] (checks : Bool) (val : HalfUsize) :
    SearchesWord checks val ∧ ClaimLoopGoesOn ι T checks val ↔ val ≠ BitVec.allOnes 32 := by
  constructor
  · intro ⟨h, _⟩ hfull
    exact absurd (h.inside 32 (width_mem_shiftsFrom (eq_allOnes_iff.mp hfull) (by decide) (by decide))) (by decide)
  · intro h
    obtain ⟨k, hk⟩ := exists_lowestClear h
    exact ⟨hk.searchesWord, hk.claimLoopGoesOn⟩

section

open ConcVec

/-- Two threads find the vector empty and the first wins the exchange. The second claims the bits of the published word one after another
and looks for another when all are set. -/
def claimAll : List (ℕ × Move ℕ) :=
  [(0, .push 5), (1, .push 6), (0, .next none), (1, .next none), (0, .next (some 10)), (1, .next (some 11)), (0, .next none),
    (1, .next none)] ++ List.replicate 64 (1, .next none)

theorem full_bucket_panics :
    ¬SearchesWord true 4294967295#32 ∧ firstFreeBit true 4294967295#32 = .error .overflow ∧
      ∃ s, Runs.exec (Runs.logged (Threads.step true)) (Threads.start, []) claimAll = .ok s ∧
        s.1.mem 10 = some (.word 4294967295#64) ∧ s.1.pc 1 = .panicked := by
  refine ⟨fun h => ?_, rfl, _, rfl, rfl, rfl⟩
  exact absurd (h.inside 32 (by decide)) (by decide)

end

end MiriWeirdness
