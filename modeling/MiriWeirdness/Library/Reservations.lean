import Mathlib.Algebra.Order.Ring.Nat

/-!
# Reservations that can be taken back

A counter hands out a ticket and a place: a new reservation gets the number of those before it and the room that they take. They are
finished in the order of their tickets, and one that is not finished can be taken back, which lowers the counter but leaves those it
has handed out since as they are. `Reserved` is what holds of the reservations that are outstanding, in the order in which they were
made, whatever was taken back. `Chain` is a property of those whose turn can still come: of the reservations up to the first whose
ticket is too high.
-/

namespace Reservations

variable {ι : Type*}

/-- The room that some reservations take. -/
def room (size : ι → ℕ) (is : List ι) : ℕ := (is.map size).sum

@[simp] theorem room_nil (size : ι → ℕ) : room size [] = 0 := rfl

@[simp] theorem room_cons (size : ι → ℕ) (i : ι) (is : List ι) : room size (i :: is) = size i + room size is := by
  simp [room]

@[simp] theorem room_append (size : ι → ℕ) (is js : List ι) : room size (is ++ js) = room size is + room size js := by
  simp [room]

/-- The reservations have the tickets from `f` on and the places from `b` on, in this order. -/
def Placed (ticket start size : ι → ℕ) : ℕ → ℕ → List ι → Prop
  | _, _, [] => True
  | f, b, i :: is => ticket i = f ∧ start i = b ∧ Placed ticket start size (f + 1) (b + size i) is

/-- After `f` reservations that are finished and take the room up to `b`, the outstanding ones have no ticket and no place too low, and
one with the lowest ticket that it can have has the lowest place. -/
def Reserved (ticket start size : ι → ℕ) : ℕ → ℕ → List ι → Prop
  | _, _, [] => True
  | f, b, i :: is => f ≤ ticket i ∧ b ≤ start i ∧ (ticket i = f → start i = b) ∧ Reserved ticket start size (f + 1) (b + size i) is

/-- As long as the tickets go on from `f`, the reservations satisfy `Q` at the places from `b` on. -/
def Chain (ticket size : ι → ℕ) (Q : ι → ℕ → Prop) : ℕ → ℕ → List ι → Prop
  | _, _, [] => True
  | f, b, i :: is => ticket i = f → Q i b ∧ Chain ticket size Q (f + 1) (b + size i) is

variable {ticket ticket' start start' size : ι → ℕ} {Q Q' : ι → ℕ → Prop} {i j : ι} {is js : List ι} {f b : ℕ}

/-! ## Finished reservations -/

theorem Placed.congr (h : Placed ticket start size f b is) (ht : ∀ i ∈ is, ticket' i = ticket i) (hs : ∀ i ∈ is, start' i = start i) :
    Placed ticket' start' size f b is := by
  induction is generalizing f b with
  | nil => trivial
  | cons i is ih =>
    obtain ⟨h₁, h₂, h₃⟩ := h
    rw [List.forall_mem_cons] at ht hs
    exact ⟨ht.1.trans h₁, hs.1.trans h₂, ih h₃ ht.2 hs.2⟩

theorem placed_append : Placed ticket start size f b (is ++ js) ↔
    Placed ticket start size f b is ∧ Placed ticket start size (f + is.length) (b + room size is) js := by
  induction is generalizing f b with
  | nil => simp [Placed]
  | cons i is ih =>
    have hlen : f + 1 + is.length = f + (is.length + 1) := by omega
    simp only [List.cons_append, Placed, ih, List.length_cons, room_cons, hlen, Nat.add_assoc, and_assoc]

/-- Where reservations that follow each other are. -/
theorem Placed.lt (h : Placed ticket start size f b is) (hi : i ∈ is) :
    ticket i < f + is.length ∧ start i + size i ≤ b + room size is := by
  induction is generalizing f b with
  | nil => cases hi
  | cons k is ih =>
    obtain ⟨h₁, h₂, h₃⟩ := h
    rw [List.length_cons, room_cons]
    rcases List.mem_cons.mp hi with rfl | hi
    · omega
    · have := ih h₃ hi
      omega

/-! ## Outstanding reservations -/

theorem Reserved.congr (h : Reserved ticket start size f b is) (ht : ∀ i ∈ is, ticket' i = ticket i)
    (hs : ∀ i ∈ is, start' i = start i) : Reserved ticket' start' size f b is := by
  induction is generalizing f b with
  | nil => trivial
  | cons i is ih =>
    obtain ⟨h₁, h₂, h₃, h₄⟩ := h
    rw [List.forall_mem_cons] at ht hs
    rw [Reserved, ht.1, hs.1]
    exact ⟨h₁, h₂, h₃, ih h₄ ht.2 hs.2⟩

/-- A new reservation. -/
theorem Reserved.append_singleton (h : Reserved ticket start size f b is) (ht : ticket i = f + is.length)
    (hs : start i = b + room size is) : Reserved ticket start size f b (is ++ [i]) := by
  induction is generalizing f b with
  | nil => exact ⟨Nat.le_of_eq ht.symm, Nat.le_of_eq hs.symm, fun _ => hs, trivial⟩
  | cons k is ih =>
    obtain ⟨h₁, h₂, h₃, h₄⟩ := h
    rw [List.length_cons] at ht
    rw [room_cons] at hs
    exact ⟨h₁, h₂, h₃, ih h₄ (by omega) (by omega)⟩

/-- The reservations after one that is taken back: none of them can have the lowest ticket any more. -/
theorem Reserved.lower {f' b' : ℕ} (h : Reserved ticket start size f b is) (hf : f' < f) (hb : b' ≤ b) :
    Reserved ticket start size f' b' is := by
  induction is generalizing f b f' b' with
  | nil => trivial
  | cons i is ih =>
    obtain ⟨h₁, h₂, -, h₄⟩ := h
    exact ⟨by omega, by omega, fun _ => by omega, ih h₄ (by omega) (by omega)⟩

/-- A reservation is taken back. -/
theorem Reserved.remove (h : Reserved ticket start size f b (is ++ i :: js)) : Reserved ticket start size f b (is ++ js) := by
  induction is generalizing f b with
  | nil => exact Reserved.lower h.2.2.2 (Nat.lt_succ_self f) (Nat.le_add_right b _)
  | cons k is ih => exact ⟨h.1, h.2.1, h.2.2.1, ih h.2.2.2⟩

/-- No outstanding reservation has a place too low. -/
theorem Reserved.le_start (h : Reserved ticket start size f b is) (hi : i ∈ is) : b ≤ start i := by
  induction is generalizing f b with
  | nil => cases hi
  | cons k is ih =>
    rcases List.mem_cons.mp hi with rfl | hi
    · exact h.2.1
    · exact Nat.le_trans (Nat.le_add_right b _) (ih h.2.2.2 hi)

theorem Reserved.le_ticket (h : Reserved ticket start size f b is) (hi : i ∈ is) : f ≤ ticket i := by
  induction is generalizing f b with
  | nil => cases hi
  | cons k is ih =>
    rcases List.mem_cons.mp hi with rfl | hi
    · exact h.1
    · exact Nat.le_trans (Nat.le_succ f) (ih h.2.2.2 hi)

/-- The ticket of an outstanding reservation is not below its place in the line. -/
theorem Reserved.add_length_le_ticket (h : Reserved ticket start size f b (is ++ i :: js)) : f + is.length ≤ ticket i := by
  induction is generalizing f b with
  | nil => exact h.1
  | cons k is ih =>
    have := ih h.2.2.2
    rw [List.length_cons]
    omega

/-- The reservation whose turn it is, is the first. -/
theorem Reserved.first (h : Reserved ticket start size f b is) (hi : i ∈ is) (ht : ticket i = f) :
    ∃ js, is = i :: js ∧ start i = b := by
  cases is with
  | nil => cases hi
  | cons k is =>
    rcases List.mem_cons.mp hi with rfl | hi
    · exact ⟨is, rfl, h.2.2.1 ht⟩
    · have := Reserved.le_ticket h.2.2.2 hi
      omega

/-- Tickets that grow and stay below a bound. -/
theorem ticket_add_length_lt {n : ℕ} (h : (i :: is).Pairwise fun i j => ticket i < ticket j) (hn : ∀ j ∈ i :: is, ticket j < n) :
    ticket i + is.length < n := by
  induction is generalizing i with
  | nil => exact hn i List.mem_cons_self
  | cons k is ih =>
    obtain ⟨hi, hk⟩ := List.pairwise_cons.mp h
    have hik := hi k List.mem_cons_self
    have := ih hk fun j hj => hn j (List.mem_cons_of_mem i hj)
    rw [List.length_cons]
    omega

/-- Outstanding reservations that have growing tickets, all of them below the next one, follow each other. -/
theorem Reserved.placed (h : Reserved ticket start size f b is) (hlt : is.Pairwise fun i j => ticket i < ticket j)
    (hn : ∀ i ∈ is, ticket i < f + is.length) : Placed ticket start size f b is := by
  induction is generalizing f b with
  | nil => trivial
  | cons i is ih =>
    obtain ⟨h₁, h₂, h₃, h₄⟩ := h
    have hi := ticket_add_length_lt hlt hn
    rw [List.length_cons] at hi
    have ht : ticket i = f := by omega
    refine ⟨ht, h₃ ht, ih h₄ (List.pairwise_cons.mp hlt).2 fun j hj => ?_⟩
    have hj := hn j (List.mem_cons_of_mem i hj)
    rw [List.length_cons] at hj
    omega

/-! ## Those whose turn can still come -/

/-- Properties that follow from each other at the places the reservations can have. -/
theorem Chain.imp (h : Chain ticket size Q f b is) (ht : ∀ i ∈ is, ticket' i = ticket i)
    (hQ : ∀ i ∈ is, ∀ c, b ≤ c → Q i c → Q' i c) : Chain ticket' size Q' f b is := by
  induction is generalizing f b with
  | nil => trivial
  | cons i is ih =>
    rw [List.forall_mem_cons] at ht hQ
    intro hi
    obtain ⟨hq, hrest⟩ := h (ht.1.symm.trans hi)
    exact ⟨hQ.1 b (Nat.le_refl b) hq, ih hrest ht.2 fun j hj c hc => hQ.2 j hj c (Nat.le_trans (Nat.le_add_right b _) hc)⟩

/-- A new reservation that satisfies the property everywhere. -/
theorem Chain.append_singleton (h : Chain ticket size Q f b is) (hi : ∀ c, Q i c) : Chain ticket size Q f b (is ++ [i]) := by
  induction is generalizing f b with
  | nil => exact fun _ => ⟨hi b, trivial⟩
  | cons k is ih => exact fun hk => ⟨(h hk).1, ih (h hk).2⟩

/-- A reservation is taken back: the turn of those behind it cannot come any more. -/
theorem Chain.remove (h : Chain ticket size Q f b (is ++ i :: js)) (hr : Reserved ticket start size f b (is ++ i :: js)) :
    Chain ticket size Q f b (is ++ js) := by
  induction is generalizing f b with
  | nil =>
    cases js with
    | nil => trivial
    | cons j js =>
      intro hj
      have := hr.2.2.2.1
      omega
  | cons k is ih => exact fun hk => ⟨(h hk).1, ih (h hk).2 hr.2.2.2⟩

/-- One reservation makes progress, which the others see only in the room that it takes. -/
theorem Chain.update (h : Chain ticket size Q f b is) (hr : Reserved ticket start size f b is) (hnodup : is.Nodup)
    (hj : j ∈ is) (hQj : Q j (start j) → Q' j (start j))
    (hQ : ∀ i ∈ is, i ≠ j → ∀ c, c + size i ≤ start j ∨ start j + size j ≤ c → Q i c → Q' i c) : Chain ticket size Q' f b is := by
  induction is generalizing f b with
  | nil => cases hj
  | cons i is ih =>
    obtain ⟨hi, hnodup⟩ := List.nodup_cons.mp hnodup
    intro ht
    obtain ⟨hq, hrest⟩ := h ht
    by_cases hij : i = j
    · subst hij
      have hs := hr.2.2.1 ht
      refine ⟨?_, hrest.imp (fun _ _ => rfl) fun k hk c hc => ?_⟩
      · rw [← hs] at hq ⊢
        exact hQj hq
      · exact hQ k (List.mem_cons_of_mem i hk) (fun hki => hi (hki ▸ hk)) c (Or.inr (by omega))
    · have hj := (List.mem_cons.mp hj).resolve_left (Ne.symm hij)
      have hle := hr.2.2.2.le_start hj
      exact ⟨hQ i List.mem_cons_self hij b (Or.inl hle) hq,
        ih hrest hr.2.2.2 hnodup hj fun k hk => hQ k (List.mem_cons_of_mem i hk)⟩

end Reservations
