import Mathlib.Data.Finset.Card
import MiriWeirdness.Lemmas.ConcVec
import MiriWeirdness.Theorems.ConcVecSearch

/-!
# What one step of a push does

`Moved` lists the effects that a step of a thread inside of `push` can have. Two things follow for whole runs. A thread in the claim loop
looks for the lowest clear bit of the published word and sets it; other threads set bits in between, and no bit is ever cleared, so what
is left to do is measured by the bits that are clear. And every piece of memory that is allocated is reached from the vector or held by
one thread that is inside of `push`.
-/

namespace MiriWeirdness.ConcVec

variable {ι T : Type}

/-! ## The effects -/

/-- The memory that only this thread can reach. -/
def Pc.holds : Pc T → Option Ptr
  | .exchanging _ p | .lost _ p _ | .storing p => some p
  | _ => none

theorem load_eq_ok {s : Threads ι T} {p : Ptr} {w : Usize} : s.load p = .ok w ↔ s.mem p = some (.word w) := by
  unfold Threads.load
  split
  · rename_i w' hw
    rw [hw]
    simp
  · rename_i hne
    constructor
    · intro h
      cases h
    · intro h
      exact absurd h (hne w)

variable [DecidableEq ι]

/-- The effects that a step of a thread inside of `push` can have. -/
inductive Moved (s : Threads ι T) (i : ι) : Threads ι T → Prop where
  | stay : Moved s i s
  | goto (c : Pc T) (hholds : c.holds = (s.pc i).holds) (hwin : c.winning = false) (hidle : c = .idle → s.vec.metaAllocated ≠ 0) :
      Moved s i (s.goto i c)
  | alloc (p : Ptr) (cell : Cell T) (c : Pc T) (hfree : s.mem p = none) (hheld : (s.pc i).holds = none) (hholds : c.holds = some p)
      (hwin : c.winning = (s.pc i).winning) : Moved s i { s.goto i c with mem := Function.update s.mem p (some cell) }
  | publish (v : T) (p : Ptr) (hi : s.pc i = .exchanging v p) (hmeta : s.vec.bucketMeta 0 = none) :
      Moved s i { s.goto i (.won v) with vec.bucketMeta := Function.update s.vec.bucketMeta 0 (some p) }
  | store (p : Ptr) (hi : s.pc i = .storing p) :
      Moved s i { s.goto i .marking with vec.buckets := Function.update s.vec.buckets 0 (some p) }
  | mark (hi : s.pc i = .marking) :
      Moved s i { s.goto i .idle with vec.metaAllocated := s.vec.metaAllocated ||| (1 : Usize) <<< 0 }
  | free (v : T) (p q : Ptr) (hi : s.pc i = .lost v p q) :
      Moved s i { s.goto i (.searching v q) with mem := Function.update s.mem p none }
  | claim (v : T) (q : Ptr) (b : HalfUsize) (w : Usize) (hi : s.pc i = .claiming v q b) (hq : s.mem q = some (.word w)) :
      Moved s i { s.goto i (.searching v q) with mem := Function.update s.mem q (some (.word (w ||| b.setWidth 64))) }

/-- An allocation for a thread that holds nothing yet. -/
theorem moved_alloc {s : Threads ι T} {i : ι} (answer : Option Ptr) (cell : Cell T) {pc : Ptr → Pc T} (hheld : (s.pc i).holds = none)
    (hholds : ∀ p, (pc p).holds = some p) (hwin : ∀ p, (pc p).winning = (s.pc i).winning) : Moved s i (s.alloc i answer cell pc) := by
  rcases alloc_cases s i answer cell pc with ha | ha | ⟨p, hp, ha⟩
  · rw [ha]
    exact .goto .panicked hheld.symm rfl fun hc => by cases hc
  · rw [ha]
    exact .stay
  · rw [ha]
    exact .alloc p cell (pc p) hp hheld (hholds p) (hwin p)

theorem moved_of_advance {checks : Bool} {s s' : Threads ι T} {i : ι} {answer : Option Ptr} {es : List (Event ι T)}
    (h : s.advance checks i answer = .ok (s', es)) : Moved s i s' := by
  unfold Threads.advance at h
  cases hi : s.pc i with
  | idle | panicked =>
    rw [hi] at h
    cases h
    exact .stay
  | called v =>
    simp only [hi] at h
    split at h
    · cases h
      exact .goto _ (by rw [hi]; rfl) rfl fun hc => by cases hc
    · rename_i k hbit
      cases h
      refine .goto _ (by rw [hi]; rfl) rfl fun _ hzero => ?_
      rw [hzero] at hbit
      cases hbit
  | allocating v =>
    rw [hi] at h
    cases h
    exact moved_alloc answer _ (by rw [hi]; rfl) (fun _ => rfl) fun _ => by rw [hi]; rfl
  | exchanging v p =>
    simp only [hi] at h
    split at h
    · rename_i hmeta
      cases h
      exact .publish v p hi hmeta
    · cases h
      exact .goto _ (by rw [hi]; rfl) rfl fun hc => by cases hc
  | won v =>
    rw [hi] at h
    cases h
    exact moved_alloc answer _ (by rw [hi]; rfl) (fun _ => rfl) fun _ => by rw [hi]; rfl
  | storing p =>
    rw [hi] at h
    cases h
    exact .store p hi
  | marking =>
    rw [hi] at h
    cases h
    exact .mark hi
  | lost v p q =>
    simp only [hi] at h
    obtain ⟨w, -, h⟩ := bind_eq_ok.mp h
    cases h
    exact .free v p q hi
  | searching v q =>
    simp only [hi] at h
    obtain ⟨w, -, h⟩ := bind_eq_ok.mp h
    split at h
    · cases h
      exact .goto _ (by rw [hi]; rfl) rfl fun hc => by cases hc
    · cases h
      exact .goto _ (by rw [hi]; rfl) rfl fun hc => by cases hc
    · cases h
      exact .goto _ (by rw [hi]; rfl) rfl fun hc => by cases hc
  | claiming v q b =>
    simp only [hi] at h
    obtain ⟨w, hw, h⟩ := bind_eq_ok.mp h
    cases h
    exact .claim v q b w hi (load_eq_ok.mp hw)

/-- A call of `push` is made by a thread that is outside of one. -/
theorem moved_of_step {checks : Bool} {s s' : Threads ι T} {m : ι × Move T} {es : List (Event ι T)}
    (h : s.step checks m = .ok (s', es)) : Moved s m.1 s' := by
  obtain ⟨i, move⟩ := m
  cases move with
  | next answer => exact moved_of_advance h
  | push v =>
    simp only [Threads.step] at h
    split at h
    · rename_i hi
      cases h
      exact .goto _ (by rw [hi]; rfl) rfl fun hc => by cases hc
    · cases h
      exact .stay

/-- The other threads stay where they are. -/
theorem Moved.pc_of_ne {s s' : Threads ι T} {i j : ι} (h : Moved s i s') (hji : j ≠ i) : s'.pc j = s.pc j := by
  cases h with
  | stay => rfl
  | goto | alloc | publish | store | mark | free | claim => exact Function.update_of_ne hji _ _

/-! ## Words whose bits are only set -/

/-- No bit is cleared. -/
def Grows (w w' : Usize) : Prop := ∀ k, w.getLsbD k = true → w'.getLsbD k = true

theorem Grows.refl (w : Usize) : Grows w w := fun _ hk => hk

theorem grows_or (w b : Usize) : Grows w (w ||| b) := by
  intro k hk
  rw [BitVec.getLsbD_or, hk, Bool.true_or]

/-- A word that the thread does not hold is still there after its step, and no bit of it was cleared. -/
theorem Moved.word {s s' : Threads ι T} {i : ι} (h : Moved s i s') {q : Ptr} {w : Usize} (hq : s.mem q = some (.word w))
    (hown : (s.pc i).owned ≠ some q) : ∃ w', s'.mem q = some (.word w') ∧ Grows w w' := by
  cases h with
  | stay | goto | publish | store | mark => exact ⟨w, hq, Grows.refl w⟩
  | alloc p cell c hfree =>
    have hne : q ≠ p := by
      rintro rfl
      rw [hfree] at hq
      cases hq
    exact ⟨w, (Function.update_of_ne hne _ _).trans hq, Grows.refl w⟩
  | free v p r hi =>
    have hne : q ≠ p := by
      rintro rfl
      exact hown (by rw [hi]; rfl)
    exact ⟨w, (Function.update_of_ne hne _ _).trans hq, Grows.refl w⟩
  | claim v r b x hi hr =>
    by_cases hqr : q = r
    · subst hqr
      obtain rfl : w = x := by
        rw [hq] at hr
        cases hr
        rfl
      exact ⟨_, Function.update_self q _ s.mem, grows_or w _⟩
    · exact ⟨w, (Function.update_of_ne hqr _ _).trans hq, Grows.refl w⟩

/-- The bits of the low half that are clear. -/
def clearBits (w : Usize) : Finset ℕ := (Finset.range 32).filter fun k => w.getLsbD k = false

theorem mem_clearBits {w : Usize} {k : ℕ} : k ∈ clearBits w ↔ k < 32 ∧ w.getLsbD k = false := by
  rw [clearBits, Finset.mem_filter, Finset.mem_range]

theorem Grows.clearBits_subset {w w' : Usize} (h : Grows w w') : clearBits w' ⊆ clearBits w := by
  intro k hk
  rw [mem_clearBits] at hk ⊢
  refine ⟨hk.1, ?_⟩
  by_contra hset
  have hset' := h k (by simpa using hset)
  rw [hk.2] at hset'
  cases hset'

/-- A bit of the low half is set. -/
theorem clearBits_or (w : Usize) (b : HalfUsize) :
    clearBits (w ||| b.setWidth 64) = (clearBits w).filter fun k => b.getLsbD k = false := by
  ext k
  rw [Finset.mem_filter, mem_clearBits, mem_clearBits, BitVec.getLsbD_or, BitVec.getLsbD_setWidth, Bool.or_eq_false_iff]
  constructor
  · intro ⟨hk, hw, hb⟩
    have hk' : k < 64 := by omega
    rw [decide_eq_true hk', Bool.true_and] at hb
    exact ⟨⟨hk, hw⟩, hb⟩
  · intro ⟨⟨hk, hw⟩, hb⟩
    rw [hb, Bool.and_false]
    exact ⟨hk, hw, rfl⟩

/-- What a thread in the claim loop has still to do, when the word is this: two steps for each clear bit, and the one that leaves. -/
def loopLeft (w : Usize) : Pc T → ℕ
  | .lost _ _ _ => 2 * (clearBits w).card + 2
  | .searching _ _ => 2 * (clearBits w).card + 1
  | .claiming _ _ bit => 2 * ((clearBits w).filter fun k => bit.getLsbD k = false).card + 2
  | _ => 0

omit [DecidableEq ι] in
theorem Grows.loopLeft_le {w w' : Usize} (h : Grows w w') (c : Pc T) : loopLeft w' c ≤ loopLeft w c := by
  have hall := Finset.card_le_card h.clearBits_subset
  cases c with
  | lost | searching =>
    simp only [loopLeft]
    omega
  | claiming v q bit =>
    have hleft := Finset.card_le_card (Finset.filter_subset_filter (fun k => bit.getLsbD k = false) h.clearBits_subset)
    simp only [loopLeft]
    omega
  | idle | called | allocating | exchanging | won | storing | marking | panicked => exact Nat.le_refl _

end MiriWeirdness.ConcVec
