import MiriWeirdness.Lemmas.ConcVec

/-!
# The first bucket of the concurrent vector

However the threads that call `push` interleave, one of them initialises the first bucket, once. The others, which lost the exchange, go
on to claim bits of its metadata word, of which there are more than the bucket has slots.
-/

namespace MiriWeirdness.ConcVec

variable {ι T : Type}

/-! ## The initialisation -/

/-- What a state and its history say about the initialisation of the first bucket: at most one exchange was won and at most one value was
stored, by the thread that won; a published metadata word is still allocated and was not freed; only the first bit can be set, and it is
set only when both pointers are, to the winner's word and to its value. -/
structure InitializedOnce (s : Threads ι T) (log : List (Event ι T)) : Prop where
  wonOnce : (wins log).length ≤ 1
  storedOnce : (stores log).length ≤ 1
  storedByWinner : ∀ i p, Event.stored i p ∈ log →
    ∃ m v, Event.won i m v ∈ log ∧ s.vec.buckets 0 = some p ∧ s.mem p = some (.val v)
  notFreed : ∀ i m v, Event.won i m v ∈ log → (∃ w, s.mem m = some (.word w)) ∧ ∀ j, ¬[Event.won i m v, Event.freed j m].Sublist log
  onlyFirstBit : ∀ k, k ≠ 0 → s.vec.metaAllocated.getLsbD k = false
  published : s.vec.metaAllocated.getLsbD 0 = true → ∃ i m v p w, Event.won i m v ∈ log ∧ Event.stored i p ∈ log ∧
    s.vec.bucketMeta 0 = some m ∧ s.mem m = some (.word w) ∧ s.vec.buckets 0 = some p ∧ s.mem p = some (.val v)

theorem Phase.length_wins_le (ph : Phase ι T) : ph.wins.length ≤ 1 := by
  cases ph <;> simp [Phase.wins]

theorem Phase.length_stores_le (ph : Phase ι T) : ph.stores.length ≤ 1 := by
  cases ph <;> simp [Phase.stores]

/-- A store in the bucket is that of the winner's value. -/
theorem Phase.of_mem_stores {ph : Phase ι T} {i : ι} {p : Ptr} (h : (i, p) ∈ ph.stores) :
    ∃ m v, (i, m, v) ∈ ph.wins ∧ ph.bucket? = some p ∧ ph.cell? = some (p, v) := by
  cases ph with
  | fresh | won | written => cases h
  | stored j m v q | marked j m v q =>
    obtain ⟨rfl, rfl⟩ : i = j ∧ p = q := by simpa [Phase.stores] using h
    exact ⟨m, v, List.mem_singleton_self _, rfl, rfl⟩

/-- The bit is set only when the value is in the bucket. -/
theorem Phase.of_bits {ph : Phase ι T} (h : ph.bits.getLsbD 0 = true) :
    ∃ i m v p, (i, m, v) ∈ ph.wins ∧ (i, p) ∈ ph.stores ∧ ph.word? = some m ∧ ph.bucket? = some p ∧ ph.cell? = some (p, v) := by
  cases ph with
  | fresh | won | written | stored => exact absurd h (by simp [Phase.bits])
  | marked i m v p => exact ⟨i, m, v, p, List.mem_singleton_self _, List.mem_singleton_self _, rfl, rfl, rfl⟩

theorem Inv.initializedOnce {s : Threads ι T × List (Event ι T)} {claimed : Bool} (h : Inv s claimed) : InitializedOnce s.1 s.2 := by
  obtain ⟨ph, h⟩ := h
  refine ⟨?_, ?_, ?_, ?_, ?_, ?_⟩
  · rw [h.wins]
    exact ph.length_wins_le
  · rw [h.stores]
    exact ph.length_stores_le
  · intro i p hp
    rw [← mem_stores, h.stores] at hp
    obtain ⟨m, v, hw, hb, hc⟩ := Phase.of_mem_stores hp
    refine ⟨m, v, ?_, h.buckets.trans hb, h.val p v hc⟩
    rw [← mem_wins, h.wins]
    exact hw
  · intro i m v hw
    rw [← mem_wins, h.wins] at hw
    obtain ⟨w, hm, -⟩ := h.word m (Phase.word_of_mem_wins hw)
    exact ⟨⟨w, hm⟩, fun j => h.kept i m v j⟩
  · intro k hk
    rw [h.metaAllocated]
    cases ph with
    | fresh | won | written | stored => simp [Phase.bits]
    | marked => simp [Phase.bits, hk]
  · intro hbit
    rw [h.metaAllocated] at hbit
    obtain ⟨i, m, v, p, hw, hp, hword, hb, hc⟩ := Phase.of_bits hbit
    obtain ⟨w, hm, -⟩ := h.word m hword
    rw [← h.wins, mem_wins] at hw
    rw [← h.stores, mem_stores] at hp
    exact ⟨i, m, v, p, w, hw, hp, h.bucketMeta.trans hword, hm, h.buckets.trans hb, h.val p v hc⟩

section

variable [DecidableEq ι]

/-- Any number of threads may call `push` any number of times, their steps may interleave in any way and allocations may fail: no step
touches memory that is not allocated, and in every state the first bucket has been initialised at most once, by one thread. -/
theorem init_once (checks : Bool) (moves : List (ι × Move T)) :
    ∃ s, Runs.exec (Runs.logged (Threads.step checks)) (Threads.start, []) moves = .ok s ∧ InitializedOnce s.1 s.2 := by
  obtain ⟨s, claimed, hs, h, -⟩ := @Inv.run _ _ _ checks _ _ inv_start moves
  exact ⟨s, hs, h.initializedOnce⟩

end

/-! ## The claims -/

/-- Every present bit of the first bucket's metadata word is at the position of a slot of the bucket. -/
def PresentInBucket (s : Threads ι T) : Prop :=
  ∀ m w, s.vec.bucketMeta 0 = some m → s.mem m = some (.word w) → ∀ k, (present w).getLsbD k = true → k < bucketSize 0

/-- The present bits are those of slots as long as no bit was claimed. -/
theorem Inv.present_iff_unclaimed {s : Threads ι T × List (Event ι T)} {claimed : Bool} (h : Inv s claimed) :
    PresentInBucket s.1 ↔ claimed = false := by
  obtain ⟨ph, h⟩ := h
  constructor
  · intro hp
    by_contra hc
    rw [Bool.not_eq_false] at hc
    obtain ⟨m, hm⟩ := Option.ne_none_iff_exists'.mp (h.claimed hc)
    obtain ⟨w, hw, -, hk⟩ := h.word m hm
    rw [hc, if_pos rfl] at hk
    obtain ⟨k, hpos, hlt, hbit⟩ := hk
    have hin := hp m w (h.bucketMeta.trans hm) hw k (by rw [getLsbD_present, hbit]; simp [hlt])
    exact absurd hin (by simp only [bucketSize, Nat.shiftLeft_zero]; omega)
  · rintro rfl m w hm hw k hk
    obtain ⟨w', hw', -, rfl⟩ := h.word m (h.bucketMeta.symm.trans hm)
    obtain rfl : w = 1 := by
      rw [hw] at hw'
      cases hw'
      rfl
    rw [getLsbD_present, Bool.and_eq_true] at hk
    have hzero : k = 0 := by simpa using hk.2
    rw [hzero]
    decide

/-- In every state that a schedule of any number of threads reaches, the present bits of the first bucket's metadata word are those of its
slots if and only if no thread that lost the exchange has taken the step that claims a bit. -/
theorem presentInBucket_iff [DecidableEq ι] (checks : Bool) (moves : List (ι × Move T)) :
    ∃ s, Runs.exec (Runs.logged (Threads.step checks)) (Threads.start, []) moves = .ok s ∧
      (PresentInBucket s.1 ↔ Runs.Along (Runs.logged (Threads.step checks)) NoClaim (Threads.start, []) moves) := by
  obtain ⟨s, claimed, hs, h, hiff⟩ := @Inv.run _ _ _ checks _ _ inv_start moves
  refine ⟨s, hs, ?_⟩
  rw [h.present_iff_unclaimed, hiff]
  exact and_iff_right rfl

/-- Two threads find the vector empty and allocate a metadata word each; the first wins the exchange, and the second claims the second bit
of a bucket with one slot. -/
def race : List (ℕ × Move ℕ) :=
  [(0, .push 5), (1, .push 6), (0, .next none), (1, .next none), (0, .next (some 10)), (1, .next (some 11)), (0, .next none),
    (1, .next none), (1, .next none), (1, .next none), (1, .next none)]

theorem race_claims_beyond_bucket :
    ∃ s, Runs.exec (Runs.logged (Threads.step true)) (Threads.start, []) race = .ok s ∧ s.1.vec.bucketMeta 0 = some 10 ∧
      s.1.mem 10 = some (.word 3) ∧ ¬PresentInBucket s.1 := by
  refine ⟨_, rfl, rfl, rfl, fun h => ?_⟩
  exact absurd (h 10 3 rfl rfl 1 (by decide)) (by decide)

end MiriWeirdness.ConcVec
