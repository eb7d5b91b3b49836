import Mathlib.Data.List.Sublists
import MiriWeirdness.ConcVec
import MiriWeirdness.Library.Runs

/-!
# How the first bucket comes to be

What holds in every state that threads calling `push` reach. The initialisation of the first bucket goes through the phases of `Phase`:
one thread wins the exchange of the metadata word, allocates the value, stores its address and sets the bit. Every other thread owns the
metadata word that it has allocated until it frees it, and reads only the winner's.
-/

namespace MiriWeirdness.ConcVec

variable {ι T : Type}

/-! ## Bits -/

/-- A bit that the search gives back is clear and lies inside of the operand. -/
theorem firstFreeFrom_eq_some {checks : Bool} {val bit : HalfUsize} {rounds i : ℕ}
    (h : firstFreeFrom checks val rounds i = .ok (some bit)) : ∃ k < 32, bit = 1#32 <<< k ∧ val &&& bit = 0 := by
  induction rounds generalizing i with
  | zero => cases h
  | succ rounds ih =>
    unfold firstFreeFrom at h
    cases hb : halfBit checks i with
    | error f => simp [hb] at h
    | ok b =>
      simp only [hb, ok_bind] at h
      split at h
      · rename_i hfree
        cases h
        unfold halfBit at hb
        split at hb
        · rename_i hi
          cases hb
          exact ⟨i, hi, rfl, hfree⟩
        · split at hb
          · cases hb
          · cases hb
            exact ⟨i % 32, Nat.mod_lt _ (by decide), rfl, hfree⟩
      · exact ih h

/-- A bit of the low half of a word. -/
theorem getLsbD_present (w : Usize) (k : ℕ) : (present w).getLsbD k = (decide (k < 32) && w.getLsbD k) := by
  rw [present, BitVec.getLsbD_setWidth, BitVec.getLsbD_and, BitVec.getLsbD_ofNat, Nat.testBit_two_pow_sub_one]
  by_cases hk : k < 32
  · have hk' : k < 64 := by omega
    simp [hk, hk']
  · simp [hk]

/-- When the lowest bit of a word is set, a bit that the search gives back is another one. -/
theorem exists_of_firstFreeBit {checks : Bool} {w : Usize} {b : HalfUsize} (hw : w.getLsbD 0 = true)
    (h : firstFreeBit checks (present w) = .ok (some b)) : ∃ k, 0 < k ∧ k < 32 ∧ b = 1#32 <<< k := by
  obtain ⟨k, hk, rfl, hfree⟩ := firstFreeFrom_eq_some h
  refine ⟨k, Nat.pos_of_ne_zero ?_, hk, rfl⟩
  rintro rfl
  have hbit : (present w &&& 1#32 <<< 0).getLsbD 0 = false := by
    rw [hfree]
    rfl
  rw [BitVec.getLsbD_and, getLsbD_present, hw] at hbit
  exact absurd hbit (by decide)

/-! ## Threads and events -/

/-- The thread has won the exchange and is not done with the initialisation. -/
def Pc.winning : Pc T → Bool
  | .won _ | .storing _ | .marking => true
  | _ => false

/-- The metadata word that the thread has allocated and that no other thread can reach. -/
def Pc.owned : Pc T → Option Ptr
  | .exchanging _ p | .lost _ p _ => some p
  | _ => none

/-- The metadata word that the thread got from the exchange it has lost. -/
def Pc.reads : Pc T → Option Ptr
  | .lost _ _ q | .searching _ q | .claiming _ q _ => some q
  | _ => none

/-- The exchanges that were won, in order. -/
def wins (log : List (Event ι T)) : List (ι × Ptr × T) :=
  log.filterMap fun e =>
    match e with
    | .won i p v => some (i, p, v)
    | _ => none

/-- The stores to the first bucket, in order. -/
def stores (log : List (Event ι T)) : List (ι × Ptr) :=
  log.filterMap fun e =>
    match e with
    | .stored i p => some (i, p)
    | _ => none

theorem mem_wins {log : List (Event ι T)} {i : ι} {p : Ptr} {v : T} : (i, p, v) ∈ wins log ↔ Event.won i p v ∈ log := by
  unfold wins
  rw [List.mem_filterMap]
  constructor
  · rintro ⟨e, he, heq⟩
    cases e with
    | won j q w =>
      cases heq
      exact he
    | stored j q => cases heq
    | freed j q => cases heq
  · intro he
    exact ⟨_, he, rfl⟩

theorem mem_stores {log : List (Event ι T)} {i : ι} {p : Ptr} : (i, p) ∈ stores log ↔ Event.stored i p ∈ log := by
  unfold stores
  rw [List.mem_filterMap]
  constructor
  · rintro ⟨e, he, heq⟩
    cases e with
    | won j q w => cases heq
    | stored j q =>
      cases heq
      exact he
    | freed j q => cases heq
  · intro he
    exact ⟨_, he, rfl⟩

theorem wins_append (log log' : List (Event ι T)) : wins (log ++ log') = wins log ++ wins log' := List.filterMap_append

theorem stores_append (log log' : List (Event ι T)) : stores (log ++ log') = stores log ++ stores log' := List.filterMap_append

/-- No metadata word is freed after it has been published. -/
def KeepsPublished (log : List (Event ι T)) : Prop := ∀ i p v j, ¬[Event.won i p v, Event.freed j p].Sublist log

/-- Two events in this order, in a history with one more event. -/
theorem pair_sublist_append {a b e : Event ι T} {log : List (Event ι T)} (h : [a, b].Sublist (log ++ [e])) :
    [a, b].Sublist log ∨ (b = e ∧ a ∈ log) := by
  obtain ⟨l₁, l₂, heq, h₁, h₂⟩ := List.sublist_append_iff.mp h
  cases l₂ with
  | nil =>
    rw [List.append_nil] at heq
    rw [heq]
    exact Or.inl h₁
  | cons c l₂ =>
    have hlen := h₂.length_le
    have hnil : l₂ = [] := List.eq_nil_of_length_eq_zero (by simpa using hlen)
    subst hnil
    obtain rfl : c = e := by simpa using h₂.subset List.mem_cons_self
    have hab : [a] ++ [b] = l₁ ++ [c] := heq
    obtain ⟨rfl, hb⟩ := List.append_inj' hab rfl
    cases hb
    exact Or.inr ⟨rfl, h₁.subset List.mem_cons_self⟩

/-- One more event, which frees no word that was published. -/
theorem KeepsPublished.append {log : List (Event ι T)} {e : Event ι T} (h : KeepsPublished log)
    (he : ∀ i p v j, e = .freed j p → (i, p, v) ∉ wins log) : KeepsPublished (log ++ [e]) := by
  intro i p v j hs
  rcases pair_sublist_append hs with hs | ⟨rfl, hm⟩
  · exact h i p v j hs
  · exact he i p v j rfl (mem_wins.mpr hm)

/-! ## The phases -/

/-- How far the initialisation is: not begun; the exchange is won by a thread with its word, for a value; the value is written to memory
of its own; that memory is stored in the bucket; the bit is set. -/
inductive Phase (ι T : Type) where
  | fresh
  | won (i : ι) (word : Ptr) (val : T)
  | written (i : ι) (word : Ptr) (val : T) (valAlloc : Ptr)
  | stored (i : ι) (word : Ptr) (val : T) (valAlloc : Ptr)
  | marked (i : ι) (word : Ptr) (val : T) (valAlloc : Ptr)

namespace Phase

/-- The published metadata word. -/
def word? : Phase ι T → Option Ptr
  | .fresh => none
  | .won _ m _ | .written _ m _ _ | .stored _ m _ _ | .marked _ m _ _ => some m

/-- The memory with the winner's value. -/
def cell? : Phase ι T → Option (Ptr × T)
  | .fresh | .won _ _ _ => none
  | .written _ _ v p | .stored _ _ v p | .marked _ _ v p => some (p, v)

/-- The pointer in the first bucket. -/
def bucket? : Phase ι T → Option Ptr
  | .fresh | .won _ _ _ | .written _ _ _ _ => none
  | .stored _ _ _ p | .marked _ _ _ p => some p

/-- The word of bits. -/
def bits : Phase ι T → Usize
  | .marked _ _ _ _ => 1
  | _ => 0

/-- The exchanges that were won. -/
def wins : Phase ι T → List (ι × Ptr × T)
  | .fresh => []
  | .won i m v | .written i m v _ | .stored i m v _ | .marked i m v _ => [(i, m, v)]

/-- The stores to the bucket. -/
def stores : Phase ι T → List (ι × Ptr)
  | .fresh | .won _ _ _ | .written _ _ _ _ => []
  | .stored i _ _ p | .marked i _ _ p => [(i, p)]

/-- A thread at work on the initialisation, in this phase. -/
inductive Works : Phase ι T → ι → Pc T → Prop where
  | won (i m v) : Works (.won i m v) i (.won v)
  | written (i m v p) : Works (.written i m v p) i (.storing p)
  | stored (i m v p) : Works (.stored i m v p) i .marking

end Phase

/-- What the threads own and read in a phase: only the winner works on the initialisation, a word that a thread has to itself is as it
was initialised and is not the published one, a word that it reads is the published one, and a bit that it claims is not the first. -/
structure Parties (mem : Ptr → Option (Cell T)) (pc : ι → Pc T) (ph : Phase ι T) : Prop where
  winning : ∀ i, (pc i).winning = true → ph.Works i (pc i)
  owned : ∀ i p, (pc i).owned = some p → mem p = some (.word 1) ∧ ph.word? ≠ some p
  apart : ∀ i j p, (pc i).owned = some p → (pc j).owned = some p → i = j
  reads : ∀ i q, (pc i).reads = some q → ph.word? = some q
  bit : ∀ i v q b, pc i = .claiming v q b → ∃ k, 0 < k ∧ k < 32 ∧ b = 1#32 <<< k

/-- What the published word is, before and after a thread that has lost claims a bit. -/
def Published (claimed : Bool) (w : Usize) : Prop :=
  w.getLsbD 0 = true ∧ if claimed then ∃ k, 0 < k ∧ k < 32 ∧ w.getLsbD k = true else w = 1

/-- The invariant of a state and its history, in a phase; `claimed` says whether a thread has claimed a bit. -/
structure InvAt (vec : ConcVec T) (mem : Ptr → Option (Cell T)) (pc : ι → Pc T) (log : List (Event ι T)) (claimed : Bool)
    (ph : Phase ι T) : Prop extends Parties mem pc ph where
  bucketMeta : vec.bucketMeta 0 = ph.word?
  buckets : vec.buckets 0 = ph.bucket?
  metaAllocated : vec.metaAllocated = ph.bits
  word : ∀ m, ph.word? = some m → ∃ w : Usize, mem m = some (.word w) ∧ Published claimed w
  claimed : claimed = true → ph.word? ≠ none
  val : ∀ p v, ph.cell? = some (p, v) → mem p = some (.val v)
  wins : wins log = ph.wins
  stores : stores log = ph.stores
  kept : KeepsPublished log

/-! ## What a step of a thread does to the invariant -/

theorem Phase.eq_fresh {ph : Phase ι T} (h : ph.word? = none) : ph = .fresh := by
  cases ph with
  | fresh => rfl
  | won | written | stored | marked => cases h

/-- The exchange that a phase counts is the one of its word. -/
theorem Phase.word_of_mem_wins {ph : Phase ι T} {i : ι} {p : Ptr} {v : T} (h : (i, p, v) ∈ ph.wins) : ph.word? = some p := by
  cases ph with
  | fresh => cases h
  | won j m w | written j m w q | stored j m w q | marked j m w q =>
    obtain ⟨-, hp, -⟩ : i = j ∧ p = m ∧ v = w := by simpa [Phase.wins] using h
    rw [hp]
    rfl

/-- Only one thread works on the initialisation. -/
theorem Phase.Works.unique {ph : Phase ι T} {i j : ι} {c d : Pc T} (h : ph.Works i c) (h' : ph.Works j d) : i = j := by
  cases h <;> cases h' <;> rfl

section

variable {vec : ConcVec T} {mem : Ptr → Option (Cell T)} {pc : ι → Pc T} {log : List (Event ι T)} {claimed : Bool}
  {ph : Phase ι T} {i : ι}

/-- A state that no thread has touched. -/
theorem invAt_start : InvAt (new : ConcVec T) (fun _ => none) (fun _ : ι => .idle) [] false .fresh := by
  refine ⟨⟨?_, ?_, ?_, ?_, ?_⟩, rfl, rfl, rfl, ?_, ?_, ?_, rfl, rfl, ?_⟩
  · intro j hj
    cases hj
  · intro j p hj
    cases hj
  · intro j k p hj
    cases hj
  · intro j q hj
    cases hj
  · intro j v q b hj
    cases hj
  · intro m hm
    cases hm
  · intro hc
    cases hc
  · intro p v hp
    cases hp
  · intro j p v k hs
    cases hs

/-- Memory that was not in use is given out. -/
theorem InvAt.fill (h : InvAt vec mem pc log claimed ph) {p : Ptr} (hp : mem p = none) (c : Cell T) :
    InvAt vec (Function.update mem p (some c)) pc log claimed ph := by
  have hne : ∀ q x, mem q = some x → q ≠ p := by
    rintro q x hq rfl
    rw [hp] at hq
    cases hq
  refine { h with owned := ?_, word := ?_, val := ?_ }
  · intro j q hq
    obtain ⟨hw, hword⟩ := h.owned j q hq
    exact ⟨by rw [Function.update_of_ne (hne q _ hw), hw], hword⟩
  · intro m hm
    obtain ⟨w, hw, hbit⟩ := h.word m hm
    exact ⟨w, by rw [Function.update_of_ne (hne m _ hw), hw], hbit⟩
  · intro q v hq
    have hv := h.val q v hq
    rw [Function.update_of_ne (hne q _ hv), hv]

/-- Memory that is not in use is neither published nor owned. -/
theorem InvAt.unused (h : InvAt vec mem pc log claimed ph) {p : Ptr} (hp : mem p = none) : ph.word? ≠ some p ∧ ∀ j, (pc j).owned ≠ some p := by
  refine ⟨fun hm => ?_, fun j hj => ?_⟩
  · obtain ⟨w, hw, -⟩ := h.word p hm
    rw [hp] at hw
    cases hw
  · have hw := (h.owned j p hj).1
    rw [hp] at hw
    cases hw

variable [DecidableEq ι]

/-- One thread goes on at another place, perhaps with other memory and in another phase: what has to hold of it and of the others. -/
theorem Parties.update {mem' : Ptr → Option (Cell T)} {ph' : Phase ι T} {c : Pc T} (h : Parties mem pc ph)
    (hwin : c.winning = true → ph'.Works i c) (hwins : ∀ j, j ≠ i → (pc j).winning = true → ph'.Works j (pc j))
    (hown : ∀ p, c.owned = some p → mem' p = some (.word 1) ∧ ph'.word? ≠ some p ∧ ∀ j, j ≠ i → (pc j).owned ≠ some p)
    (howns : ∀ j, j ≠ i → ∀ p, (pc j).owned = some p → mem' p = some (.word 1) ∧ ph'.word? ≠ some p)
    (hread : ∀ q, c.reads = some q → ph'.word? = some q) (hreads : ∀ j, j ≠ i → ∀ q, (pc j).reads = some q → ph'.word? = some q)
    (hbit : ∀ v q b, c = .claiming v q b → ∃ k, 0 < k ∧ k < 32 ∧ b = 1#32 <<< k) :
    Parties mem' (Function.update pc i c) ph' := by
  refine ⟨?_, ?_, ?_, ?_, ?_⟩
  · exact (Function.forall_update_iff pc fun j d => d.winning = true → ph'.Works j d).mpr ⟨hwin, hwins⟩
  · exact (Function.forall_update_iff pc fun j d => ∀ p, d.owned = some p → mem' p = some (.word 1) ∧ ph'.word? ≠ some p).mpr
      ⟨fun p hp => ⟨(hown p hp).1, (hown p hp).2.1⟩, howns⟩
  · intro j k p hj hk
    by_cases hji : j = i
    · by_cases hki : k = i
      · exact hji.trans hki.symm
      · rw [hji, Function.update_self] at hj
        rw [Function.update_of_ne hki] at hk
        exact absurd hk ((hown p hj).2.2 k hki)
    · rw [Function.update_of_ne hji] at hj
      by_cases hki : k = i
      · rw [hki, Function.update_self] at hk
        exact absurd hj ((hown p hk).2.2 j hji)
      · rw [Function.update_of_ne hki] at hk
        exact h.apart j k p hj hk
  · exact (Function.forall_update_iff pc fun j d => ∀ q, d.reads = some q → ph'.word? = some q).mpr ⟨hread, hreads⟩
  · exact (Function.forall_update_iff pc fun _ d => ∀ v q b, d = .claiming v q b → ∃ k, 0 < k ∧ k < 32 ∧ b = 1#32 <<< k).mpr
      ⟨hbit, fun j _ => h.bit j⟩

/-- A thread goes on at a place where it owns nothing that is not private, reads nothing that is not published, and does not work on the
initialisation. -/
theorem InvAt.goto (h : InvAt vec mem pc log claimed ph) {c : Pc T} (hwin : c.winning = false)
    (hown : ∀ p, c.owned = some p → mem p = some (.word 1) ∧ ph.word? ≠ some p ∧ ∀ j, j ≠ i → (pc j).owned ≠ some p)
    (hread : ∀ q, c.reads = some q → ph.word? = some q) (hbit : ∀ v q b, c = .claiming v q b → ∃ k, 0 < k ∧ k < 32 ∧ b = 1#32 <<< k) :
    InvAt vec mem (Function.update pc i c) log claimed ph :=
  { h with
    toParties := h.toParties.update (fun hc => absurd hc (by simp [hwin])) (fun j _ => h.winning j) hown (fun j _ => h.owned j) hread
      (fun j _ => h.reads j) hbit }

/-- A thread goes on at a place where it owns and reads nothing. -/
theorem InvAt.goto_plain (h : InvAt vec mem pc log claimed ph) {c : Pc T} (hwin : c.winning = false) (hown : c.owned = none)
    (hread : c.reads = none) : InvAt vec mem (Function.update pc i c) log claimed ph := by
  refine h.goto hwin (fun p hp => ?_) (fun q hq => ?_) (fun v q b hc => ?_)
  · rw [hown] at hp
    cases hp
  · rw [hread] at hq
    cases hq
  · rw [hc] at hread
    cases hread

/-- A thread allocates its metadata word. -/
theorem InvAt.allocWord (h : InvAt vec mem pc log claimed ph) {p : Ptr} (hp : mem p = none) (v : T) :
    InvAt vec (Function.update mem p (some (.word 1))) (Function.update pc i (.exchanging v p)) log claimed ph := by
  refine (h.fill hp (.word 1)).goto rfl (fun q hq => ?_) (fun q hq => ?_) (fun w q b hc => ?_)
  · obtain rfl : p = q := Option.some.inj hq
    exact ⟨Function.update_self p _ mem, (h.unused hp).1, fun j _ => (h.unused hp).2 j⟩
  · cases hq
  · cases hc

/-- A thread wins the exchange: there was no metadata word before, and its own is published. -/
theorem InvAt.win (h : InvAt vec mem pc log claimed ph) {v : T} {m : Ptr} (hi : pc i = .exchanging v m) (hnone : vec.bucketMeta 0 = none) :
    InvAt { vec with bucketMeta := Function.update vec.bucketMeta 0 (some m) } mem (Function.update pc i (.won v))
      (log ++ [.won i m v]) claimed (.won i m v) := by
  obtain rfl : ph = .fresh := Phase.eq_fresh (h.bucketMeta.symm.trans hnone)
  have hm : (pc i).owned = some m := by rw [hi]; rfl
  obtain rfl : claimed = false := Bool.eq_false_iff.mpr fun hc => h.claimed hc rfl
  refine ⟨?_, Function.update_self 0 _ vec.bucketMeta, h.buckets, h.metaAllocated, ?_, ?_, ?_, ?_, ?_, ?_⟩
  · refine h.toParties.update (fun _ => .won i m v) (fun j _ hj => ?_) (fun p hp => ?_) (fun j hji p hj => ?_) (fun q hq => ?_)
      (fun j _ q hj => ?_) (fun w q b hc => ?_)
    · cases h.winning j hj
    · cases hp
    · refine ⟨(h.owned j p hj).1, fun hp => hji ?_⟩
      obtain rfl : m = p := Option.some.inj hp
      exact h.apart j i m hj hm
    · cases hq
    · cases h.reads j q hj
    · cases hc
  · intro q hq
    obtain rfl : m = q := Option.some.inj hq
    exact ⟨1, (h.owned i m hm).1, by decide, rfl⟩
  · intro hc
    cases hc
  · intro p w hp
    cases hp
  · rw [wins_append, h.wins]
    rfl
  · rw [stores_append, h.stores]
    rfl
  · exact h.kept.append fun _ _ _ _ he => by cases he

/-- The winner allocates its value. -/
theorem InvAt.allocVal (h : InvAt vec mem pc log claimed ph) {v : T} {p : Ptr} (hi : pc i = .won v) (hp : mem p = none) :
    ∃ ph', InvAt vec (Function.update mem p (some (.val v))) (Function.update pc i (.storing p)) log claimed ph' := by
  have hw := h.winning i (by rw [hi]; rfl)
  rw [hi] at hw
  obtain ⟨m, rfl⟩ : ∃ m, ph = .won i m v := by
    cases hw
    exact ⟨_, rfl⟩
  have hf := h.fill hp (.val v)
  refine ⟨.written i m v p, ⟨?_, h.bucketMeta, h.buckets, h.metaAllocated, hf.word, h.claimed, ?_, h.wins, h.stores, h.kept⟩⟩
  · refine hf.toParties.update (fun _ => .written i m v p) (fun j hji hj => ?_) (fun q hq => ?_) (fun j _ => hf.owned j) (fun q hq => ?_)
      (fun j _ => hf.reads j) (fun w q b hc => ?_)
    · exact absurd ((h.winning j hj).unique hw) hji
    · cases hq
    · cases hq
    · cases hc
  · intro q w hq
    cases hq
    exact Function.update_self p _ mem

/-- The winner stores its value in the bucket. -/
theorem InvAt.store (h : InvAt vec mem pc log claimed ph) {p : Ptr} (hi : pc i = .storing p) :
    ∃ ph', InvAt { vec with buckets := Function.update vec.buckets 0 (some p) } mem (Function.update pc i .marking)
      (log ++ [.stored i p]) claimed ph' := by
  have hw := h.winning i (by rw [hi]; rfl)
  rw [hi] at hw
  obtain ⟨m, v, rfl⟩ : ∃ m v, ph = .written i m v p := by
    cases hw
    exact ⟨_, _, rfl⟩
  refine ⟨.stored i m v p, ⟨?_, h.bucketMeta, Function.update_self 0 _ vec.buckets, h.metaAllocated, h.word, h.claimed, h.val, ?_, ?_, ?_⟩⟩
  · refine h.toParties.update (fun _ => .stored i m v p) (fun j hji hj => ?_) (fun q hq => ?_) (fun j _ => h.owned j) (fun q hq => ?_)
      (fun j _ => h.reads j) (fun w q b hc => ?_)
    · exact absurd ((h.winning j hj).unique hw) hji
    · cases hq
    · cases hq
    · cases hc
  · rw [wins_append, h.wins]
    rfl
  · rw [stores_append, h.stores]
    rfl
  · exact h.kept.append fun _ _ _ _ he => by cases he

/-- The winner sets the bit of the bucket. -/
theorem InvAt.mark (h : InvAt vec mem pc log claimed ph) (hi : pc i = .marking) :
    ∃ ph', InvAt { vec with metaAllocated := vec.metaAllocated ||| (1 : Usize) <<< 0 } mem (Function.update pc i .idle) log claimed ph' := by
  have hw := h.winning i (by rw [hi]; rfl)
  rw [hi] at hw
  obtain ⟨m, v, p, rfl⟩ : ∃ m v p, ph = .stored i m v p := by
    cases hw
    exact ⟨_, _, _, rfl⟩
  refine ⟨.marked i m v p, ⟨?_, h.bucketMeta, h.buckets, ?_, h.word, h.claimed, h.val, h.wins, h.stores, h.kept⟩⟩
  · refine h.toParties.update (fun hc => ?_) (fun j hji hj => ?_) (fun q hq => ?_) (fun j _ => h.owned j) (fun q hq => ?_)
      (fun j _ => h.reads j) (fun w q b hc => ?_)
    · cases hc
    · exact absurd ((h.winning j hj).unique hw) hji
    · cases hq
    · cases hq
    · cases hc
  · have hbits : (0 : Usize) ||| (1 : Usize) <<< 0 = 1 := by decide
    rw [h.metaAllocated]
    exact hbits

/-- A thread that has lost frees its own word. -/
theorem InvAt.free (h : InvAt vec mem pc log claimed ph) {v : T} {p q : Ptr} (hi : pc i = .lost v p q) :
    InvAt vec (Function.update mem p none) (Function.update pc i (.searching v q)) (log ++ [.freed i p]) claimed ph := by
  have hown : (pc i).owned = some p := by rw [hi]; rfl
  obtain ⟨hp, hpub⟩ := h.owned i p hown
  refine ⟨?_, h.bucketMeta, h.buckets, h.metaAllocated, ?_, h.claimed, ?_, ?_, ?_, ?_⟩
  · refine h.toParties.update (fun hc => ?_) (fun j _ => h.winning j) (fun r hr => ?_) (fun j hji r hj => ?_) (fun r hr => ?_)
      (fun j _ => h.reads j) (fun w r b hc => ?_)
    · cases hc
    · cases hr
    · have hne : r ≠ p := by
        rintro rfl
        exact hji (h.apart j i r hj hown)
      rw [Function.update_of_ne hne]
      exact h.owned j r hj
    · exact h.reads i r (by rw [hi]; exact hr)
    · cases hc
  · intro m hm
    have hne : m ≠ p := by
      rintro rfl
      exact hpub hm
    rw [Function.update_of_ne hne]
    exact h.word m hm
  · intro r w hr
    have hv := h.val r w hr
    have hne : r ≠ p := by
      rintro rfl
      rw [hp] at hv
      cases hv
    rw [Function.update_of_ne hne, hv]
  · rw [wins_append, h.wins]
    exact List.append_nil _
  · rw [stores_append, h.stores]
    exact List.append_nil _
  · refine h.kept.append fun j r w k he hm => hpub ?_
    cases he
    rw [h.wins] at hm
    exact Phase.word_of_mem_wins hm

/-- A thread that has lost sets a bit of the published word. -/
theorem InvAt.claim (h : InvAt vec mem pc log claimed ph) {v : T} {q : Ptr} {b : HalfUsize} {w : Usize} (hi : pc i = .claiming v q b)
    (hq : mem q = some (.word w)) :
    InvAt vec (Function.update mem q (some (.word (w ||| b.setWidth 64)))) (Function.update pc i (.searching v q)) log true ph := by
  have hpub := h.reads i q (by rw [hi]; rfl)
  refine { h with toParties := ?_, word := ?_, claimed := ?_, val := ?_ }
  · refine h.toParties.update (fun hc => ?_) (fun j _ => h.winning j) (fun r hr => ?_) (fun j _ r hj => ?_) (fun r hr => ?_)
      (fun j _ => h.reads j) (fun x r d hc => ?_)
    · cases hc
    · cases hr
    · obtain ⟨hr, hne⟩ := h.owned j r hj
      refine ⟨?_, hne⟩
      have hrq : r ≠ q := by
        rintro rfl
        exact hne hpub
      rw [Function.update_of_ne hrq, hr]
    · cases hr
      exact hpub
    · cases hc
  · intro m hm
    obtain rfl : q = m := Option.some.inj (hpub.symm.trans hm)
    obtain ⟨w', hw', hbit, -⟩ := h.word q hm
    obtain rfl : w = w' := by
      rw [hq] at hw'
      cases hw'
      rfl
    obtain ⟨k, hpos, hk, rfl⟩ := h.bit i v q b hi
    refine ⟨_, Function.update_self q _ mem, by simp [hbit], k, hpos, hk, ?_⟩
    have hself : (1#32 <<< k).getLsbD k = true := by simp [hk]
    rw [BitVec.getLsbD_or, BitVec.getLsbD_setWidth, hself]
    simp only [Bool.and_true, Bool.or_eq_true, decide_eq_true_eq]
    exact Or.inr (by omega)
  · intro _ hnone
    rw [hpub] at hnone
    cases hnone
  · intro r x hr
    have hv := h.val r x hr
    have hne : r ≠ q := by
      rintro rfl
      rw [hq] at hv
      cases hv
    rw [Function.update_of_ne hne, hv]

end

/-! ## Runs -/

/-- The invariant of a state with its history. -/
def Inv (s : Threads ι T × List (Event ι T)) (claimed : Bool) : Prop := ∃ ph, InvAt s.1.vec s.1.mem s.1.pc s.2 claimed ph

theorem inv_start : Inv ((Threads.start : Threads ι T), []) false := ⟨.fresh, invAt_start⟩

/-- The thread is about to claim a bit. -/
def Pc.claims : Pc T → Bool
  | .claiming _ _ _ => true
  | _ => false

/-- The step is that of a thread that has lost the exchange and claims a bit of the published word. -/
def claims (s : Threads ι T × List (Event ι T)) (m : ι × Move T) : Bool :=
  match m.2 with
  | .push _ => false
  | .next _ => (s.1.pc m.1).claims

section

variable [DecidableEq ι] {checks claimed : Bool} {s : Threads ι T × List (Event ι T)} {i : ι}

/-- A step that is not in the history. -/
theorem Inv.quiet {m : ι × Move T} {s' : Threads ι T} (hs : s.1.step checks m = .ok (s', [])) (h : Inv (s', s.2) claimed) :
    ∃ s', Runs.logged (Threads.step checks) s m = .ok s' ∧ Inv s' claimed :=
  ⟨(s', s.2), by simp only [Runs.logged, hs, Except.map, List.append_nil], h⟩

/-- A step that is in the history. -/
theorem Inv.event {m : ι × Move T} {s' : Threads ι T} {e : Event ι T} (hs : s.1.step checks m = .ok (s', [e]))
    (h : Inv (s', s.2 ++ [e]) claimed) : ∃ s', Runs.logged (Threads.step checks) s m = .ok s' ∧ Inv s' claimed :=
  ⟨(s', s.2 ++ [e]), by simp only [Runs.logged, hs, Except.map], h⟩

/-- An allocation: the thread panics, or it waits for memory that is not in use, or it gets some. -/
theorem alloc_cases (s : Threads ι T) (i : ι) (answer : Option Ptr) (cell : Cell T) (pc : Ptr → Pc T) :
    s.alloc i answer cell pc = s.goto i .panicked ∨ s.alloc i answer cell pc = s ∨
      ∃ p, s.mem p = none ∧ s.alloc i answer cell pc = { s.goto i (pc p) with mem := Function.update s.mem p (some cell) } := by
  cases answer with
  | none => exact Or.inl rfl
  | some p =>
    cases hp : s.mem p with
    | some c =>
      refine Or.inr (Or.inl ?_)
      simp only [Threads.alloc, hp]
    | none =>
      refine Or.inr (Or.inr ⟨p, hp, ?_⟩)
      simp only [Threads.alloc, hp]

/-- Every step of a thread inside of `push` but the claim of a bit can be taken, whatever the allocator answers, and keeps the
invariant. -/
theorem Inv.advance (h : Inv s claimed) {answer : Option Ptr} (hc : (s.1.pc i).claims = false) :
    ∃ s', Runs.logged (Threads.step checks) s (i, .next answer) = .ok s' ∧ Inv s' claimed := by
  obtain ⟨ph, h⟩ := h
  have hstep : s.1.step checks (i, .next answer) = s.1.advance checks i answer := rfl
  unfold Threads.advance at hstep
  cases hi : s.1.pc i with
  | idle | panicked =>
    rw [hi] at hstep
    exact Inv.quiet hstep ⟨ph, h⟩
  | called v =>
    simp only [hi] at hstep
    cases hbit : mostSigSetBit s.1.vec.metaAllocated with
    | none | some k =>
      rw [hbit] at hstep
      exact Inv.quiet hstep ⟨ph, h.goto_plain rfl rfl rfl⟩
  | allocating v =>
    rw [hi] at hstep
    refine Inv.quiet hstep ?_
    rcases alloc_cases s.1 i answer (.word 1) (.exchanging v) with ha | ha | ⟨p, hp, ha⟩
    · rw [ha]
      exact ⟨ph, h.goto_plain rfl rfl rfl⟩
    · rw [ha]
      exact ⟨ph, h⟩
    · rw [ha]
      exact ⟨ph, h.allocWord hp v⟩
  | exchanging v m =>
    simp only [hi] at hstep
    cases hmeta : s.1.vec.bucketMeta 0 with
    | none =>
      rw [hmeta] at hstep
      exact Inv.event hstep ⟨_, h.win hi hmeta⟩
    | some q =>
      rw [hmeta] at hstep
      refine Inv.quiet hstep ⟨ph, h.goto rfl (fun p hp => ?_) (fun r hr => ?_) (fun w r b hb => ?_)⟩
      · have hown : (s.1.pc i).owned = some p := by rw [hi]; exact hp
        obtain ⟨hw, hne⟩ := h.owned i p hown
        exact ⟨hw, hne, fun j hji hj => hji (h.apart j i p hj hown)⟩
      · cases hr
        rw [← h.bucketMeta, hmeta]
      · cases hb
  | won v =>
    rw [hi] at hstep
    refine Inv.quiet hstep ?_
    rcases alloc_cases s.1 i answer (.val v) .storing with ha | ha | ⟨p, hp, ha⟩
    · rw [ha]
      exact ⟨ph, h.goto_plain rfl rfl rfl⟩
    · rw [ha]
      exact ⟨ph, h⟩
    · rw [ha]
      exact h.allocVal hi hp
  | storing p =>
    rw [hi] at hstep
    exact Inv.event hstep (h.store hi)
  | marking =>
    rw [hi] at hstep
    exact Inv.quiet hstep (h.mark hi)
  | lost v p q =>
    have hp := (h.owned i p (by rw [hi]; rfl)).1
    simp only [hi, Threads.load, hp, ok_bind] at hstep
    exact Inv.event hstep ⟨ph, h.free hi⟩
  | searching v q =>
    have hq := h.reads i q (by rw [hi]; rfl)
    obtain ⟨w, hw, hbit, -⟩ := h.word q hq
    simp only [hi, Threads.load, hw, ok_bind] at hstep
    cases hfree : firstFreeBit checks (present w) with
    | error f =>
      rw [hfree] at hstep
      exact Inv.quiet hstep ⟨ph, h.goto_plain rfl rfl rfl⟩
    | ok found =>
      rw [hfree] at hstep
      cases found with
      | none => exact Inv.quiet hstep ⟨ph, h.goto_plain rfl rfl rfl⟩
      | some b =>
        refine Inv.quiet hstep ⟨ph, h.goto rfl (fun p hp => ?_) (fun r hr => ?_) (fun x r d hd => ?_)⟩
        · cases hp
        · cases hr
          exact hq
        · cases hd
          exact exists_of_firstFreeBit hbit hfree
  | claiming v q b =>
    rw [hi] at hc
    cases hc

/-- The claim of a bit can be made, and is known from then on. -/
theorem Inv.advance_claim (h : Inv s claimed) {answer : Option Ptr} (hc : (s.1.pc i).claims = true) :
    ∃ s', Runs.logged (Threads.step checks) s (i, .next answer) = .ok s' ∧ Inv s' true := by
  obtain ⟨ph, h⟩ := h
  have hstep : s.1.step checks (i, .next answer) = s.1.advance checks i answer := rfl
  unfold Threads.advance at hstep
  cases hi : s.1.pc i with
  | claiming v q b =>
    have hq := h.reads i q (by rw [hi]; rfl)
    obtain ⟨w, hw, -⟩ := h.word q hq
    simp only [hi, Threads.load, hw, ok_bind] at hstep
    exact Inv.quiet hstep ⟨ph, h.claim hi hw⟩
  | idle | panicked | called | allocating | exchanging | won | storing | marking | lost | searching =>
    rw [hi] at hc
    cases hc

/-- A call of `push` keeps the invariant; a thread that is inside of one does not call. -/
theorem Inv.push (h : Inv s claimed) (v : T) :
    ∃ s', Runs.logged (Threads.step checks) s (i, .push v) = .ok s' ∧ Inv s' claimed := by
  obtain ⟨ph, h⟩ := h
  cases hi : s.1.pc i with
  | idle =>
    have hstep : s.1.step checks (i, .push v) = .ok (s.1.goto i (.called v), []) := by
      simp only [Threads.step, hi]
    exact Inv.quiet hstep ⟨ph, h.goto_plain rfl rfl rfl⟩
  | panicked | called | allocating | exchanging | won | storing | marking | lost | searching | claiming =>
    have hstep : s.1.step checks (i, .push v) = .ok (s.1, []) := by
      simp only [Threads.step, hi]
    exact Inv.quiet hstep ⟨ph, h⟩

/-- Every step of a schedule can be taken and keeps the invariant. -/
theorem Inv.step (h : Inv s claimed) (m : ι × Move T) :
    ∃ s', Runs.logged (Threads.step checks) s m = .ok s' ∧ Inv s' (claimed || claims s m) := by
  obtain ⟨i, move⟩ := m
  cases move with
  | push v =>
    have hc : claims s (i, .push v) = false := rfl
    rw [hc, Bool.or_false]
    exact h.push v
  | next answer =>
    have hc : claims s (i, .next answer) = (s.1.pc i).claims := rfl
    rw [hc]
    cases hi : (s.1.pc i).claims with
    | false =>
      rw [Bool.or_false]
      exact h.advance hi
    | true =>
      rw [Bool.or_true]
      exact h.advance_claim hi

/-- The condition on a step that it is not a claim. -/
def NoClaim (s : Threads ι T × List (Event ι T)) (m : ι × Move T) : Prop := claims s m = false

instance (s : Threads ι T × List (Event ι T)) (m : ι × Move T) : Decidable (NoClaim s m) :=
  inferInstanceAs (Decidable (claims s m = false))

/-- Every schedule can be run from a state with the invariant and keeps it, and what is known of claims at its end is whether there were
any. -/
theorem Inv.run (h : Inv s claimed) (moves : List (ι × Move T)) :
    ∃ s' claimed', Runs.exec (Runs.logged (Threads.step checks)) s moves = .ok s' ∧ Inv s' claimed' ∧
      (claimed' = false ↔ claimed = false ∧ Runs.Along (Runs.logged (Threads.step checks)) NoClaim s moves) := by
  induction moves generalizing s claimed with
  | nil => exact ⟨s, claimed, rfl, h, by simp [Runs.Along]⟩
  | cons m moves ih =>
    obtain ⟨s₁, hs₁, h₁⟩ := @Inv.step _ _ _ checks _ _ h m
    obtain ⟨s₂, claimed₂, hs₂, h₂, hiff⟩ := ih h₁
    refine ⟨s₂, claimed₂, by rw [Runs.exec_cons_ok hs₁, hs₂], h₂, ?_⟩
    rw [hiff, Bool.or_eq_false_iff, and_assoc]
    refine and_congr_right fun _ => and_congr_right fun _ => ?_
    constructor
    · intro ha s' hs'
      obtain rfl : s₁ = s' := Except.ok.inj (hs₁.symm.trans hs')
      exact ha
    · intro ha
      exact ha s₁ hs₁

end

end MiriWeirdness.ConcVec
