import MiriWeirdness.Lemmas.ConcVecSteps

/-!
# Dropping the concurrent vector

Every piece of memory that is allocated is reached from the vector or held by one thread that is inside of `push`, and a thread that
panics holds none. So `Drop` gives back all that is left when no thread is inside of `push`, whatever has happened before.
-/

namespace MiriWeirdness.ConcVec

variable {ι T : Type}

/-! ## Where memory is reached from -/

/-- All memory is reached from the first bucket or held by a thread, and the other buckets are null. -/
structure Accounted (s : Threads ι T) : Prop where
  cells : ∀ p, s.mem p ≠ none → s.vec.bucketMeta 0 = some p ∨ s.vec.buckets 0 = some p ∨ ∃ i, (s.pc i).holds = some p
  buckets : ∀ k, k ≠ 0 → s.vec.buckets k = none
  bucketMeta : ∀ k, k ≠ 0 → s.vec.bucketMeta k = none

theorem accounted_start : Accounted (Threads.start : Threads ι T) := by
  refine ⟨?_, ?_, ?_⟩
  · intro p hp
    exact absurd rfl hp
  · intro k _
    rfl
  · intro k _
    rfl

section

variable {vec : ConcVec T} {mem : Ptr → Option (Cell T)} {pc : ι → Pc T} {log : List (Event ι T)} {claimed : Bool} {ph : Phase ι T}
  {i : ι} {p : Ptr}

/-- Before the winner stores its value, the bucket is null. -/
theorem InvAt.of_storing (h : InvAt vec mem pc log claimed ph) (hi : pc i = .storing p) :
    vec.buckets 0 = none ∧ ∃ v, mem p = some (.val v) := by
  have hw := h.winning i (by rw [hi]; rfl)
  rw [hi] at hw
  obtain ⟨m, v, rfl⟩ : ∃ m v, ph = .written i m v p := by
    cases hw
    exact ⟨_, _, rfl⟩
  exact ⟨h.buckets, v, h.val p v rfl⟩

/-- A pointer in the bucket is to a value. -/
theorem InvAt.of_buckets (h : InvAt vec mem pc log claimed ph) (hp : vec.buckets 0 = some p) : ∃ v, mem p = some (.val v) := by
  rw [h.buckets] at hp
  cases ph with
  | fresh | won | written => cases hp
  | stored j m v q | marked j m v q =>
    cases hp
    exact ⟨v, h.val p v rfl⟩

/-- A pointer to metadata is to a word. -/
theorem InvAt.of_bucketMeta (h : InvAt vec mem pc log claimed ph) (hp : vec.bucketMeta 0 = some p) : ∃ w, mem p = some (.word w) := by
  rw [h.bucketMeta] at hp
  obtain ⟨w, hw, -⟩ := h.word p hp
  exact ⟨w, hw⟩

/-- What a thread holds is not reached from the vector. -/
theorem InvAt.of_holds (h : InvAt vec mem pc log claimed ph) (hi : (pc i).holds = some p) :
    vec.bucketMeta 0 ≠ some p ∧ vec.buckets 0 ≠ some p := by
  have howned : (pc i).owned = some p → vec.bucketMeta 0 ≠ some p ∧ vec.buckets 0 ≠ some p := by
    intro hown
    obtain ⟨hword, hne⟩ := h.owned i p hown
    refine ⟨?_, ?_⟩
    · rw [h.bucketMeta]
      exact hne
    · intro hp
      obtain ⟨v, hv⟩ := h.of_buckets hp
      rw [hword] at hv
      cases hv
  generalize hpc : pc i = c at hi howned
  cases c with
  | exchanging v q | lost v q r => exact howned hi
  | storing q =>
    cases hi
    obtain ⟨hnull, v, hv⟩ := h.of_storing hpc
    refine ⟨?_, ?_⟩
    · intro hp
      obtain ⟨w, hw⟩ := h.of_bucketMeta hp
      rw [hv] at hw
      cases hw
    · intro hp
      rw [hnull] at hp
      cases hp
  | idle | called | allocating | won | marking | searching | claiming | panicked => cases hi

end

variable [DecidableEq ι]

/-- The memory that was reached is, after a thread went on at another place where it holds what it held. -/
theorem Accounted.goto {s : Threads ι T} (h : Accounted s) {i : ι} {c : Pc T} {p : Ptr} (hp : s.mem p ≠ none)
    (hi : (s.pc i).holds = some p → c.holds = some p) :
    s.vec.bucketMeta 0 = some p ∨ s.vec.buckets 0 = some p ∨ ∃ j, (Function.update s.pc i c j).holds = some p := by
  rcases h.cells p hp with hmeta | hbucket | ⟨j, hj⟩
  · exact Or.inl hmeta
  · exact Or.inr (Or.inl hbucket)
  · right
    right
    by_cases hji : j = i
    · subst hji
      exact ⟨j, by rw [Function.update_self, hi hj]⟩
    · exact ⟨j, by rw [Function.update_of_ne hji, hj]⟩

/-- Every step of a thread keeps all memory reached. -/
theorem Accounted.step {s : Threads ι T × List (Event ι T)} {claimed checks : Bool} (h : Accounted s.1) (hinv : Inv s claimed)
    {m : ι × Move T} {t : Threads ι T} {es : List (Event ι T)} (hs : s.1.step checks m = .ok (t, es)) : Accounted t := by
  have hmoved := moved_of_step hs
  obtain ⟨ph, hinv⟩ := hinv
  cases hmoved with
  | stay => exact h
  | goto c hholds hwin hidle =>
    refine { h with cells := ?_ }
    intro p hp
    exact h.goto hp fun hi => hholds.trans hi
  | alloc q cell c hfree hnone hholds hwin =>
    refine { h with cells := ?_ }
    intro p hp
    by_cases hpq : p = q
    · subst hpq
      exact Or.inr (Or.inr ⟨m.1, by simpa [Threads.goto] using hholds⟩)
    · have hp' : s.1.mem p ≠ none := by
        intro hmem
        exact hp ((Function.update_of_ne hpq _ _).trans hmem)
      refine h.goto hp' fun hi => ?_
      rw [hnone] at hi
      cases hi
  | publish v q hi hmeta =>
    refine ⟨?_, h.buckets, ?_⟩
    · intro p hp
      by_cases hpq : p = q
      · subst hpq
        exact Or.inl (Function.update_self 0 _ s.1.vec.bucketMeta)
      · have hgoto := h.goto (i := m.1) (c := .won v) hp fun hheld => absurd ?_ hpq
        · rcases hgoto with hmeta' | hrest
          · rw [hmeta] at hmeta'
            cases hmeta'
          · exact Or.inr hrest
        · rw [hi] at hheld
          exact (Option.some.inj hheld).symm
    · intro k hk
      exact (Function.update_of_ne hk _ _).trans (h.bucketMeta k hk)
  | store q hi =>
    obtain ⟨hnull, -⟩ := hinv.of_storing hi
    refine ⟨?_, ?_, h.bucketMeta⟩
    · intro p hp
      by_cases hpq : p = q
      · subst hpq
        exact Or.inr (Or.inl (Function.update_self 0 _ s.1.vec.buckets))
      · have hgoto := h.goto (i := m.1) (c := .marking) hp fun hheld => absurd ?_ hpq
        · rcases hgoto with hmeta | hbucket | hheld
          · exact Or.inl hmeta
          · rw [hnull] at hbucket
            cases hbucket
          · exact Or.inr (Or.inr hheld)
        · rw [hi] at hheld
          exact (Option.some.inj hheld).symm
    · intro k hk
      exact (Function.update_of_ne hk _ _).trans (h.buckets k hk)
  | mark hi =>
    refine { h with cells := ?_ }
    intro p hp
    refine h.goto hp fun hheld => ?_
    rw [hi] at hheld
    cases hheld
  | free v q r hi =>
    refine { h with cells := ?_ }
    intro p hp
    have hpq : p ≠ q := by
      intro heq
      subst heq
      exact hp (Function.update_self p _ s.1.mem)
    have hp' : s.1.mem p ≠ none := by
      intro hmem
      exact hp ((Function.update_of_ne hpq _ _).trans hmem)
    refine h.goto hp' fun hheld => absurd ?_ hpq
    rw [hi] at hheld
    exact (Option.some.inj hheld).symm
  | claim v q b w hi hq =>
    refine { h with cells := ?_ }
    intro p hp
    have hp' : s.1.mem p ≠ none := by
      intro hmem
      by_cases hpq : p = q
      · rw [hpq, hq] at hmem
        cases hmem
      · exact hp ((Function.update_of_ne hpq _ _).trans hmem)
    refine h.goto hp' fun hheld => ?_
    rw [hi] at hheld
    cases hheld

/-- In every state that a schedule reaches. -/
theorem accounted_of_exec {checks : Bool} {moves : List (ι × Move T)} {s : Threads ι T × List (Event ι T)}
    (hs : Runs.exec (Runs.logged (Threads.step checks)) (Threads.start, []) moves = .ok s) :
    Accounted s.1 ∧ ∃ claimed, Inv s claimed := by
  refine Runs.invariant (fun t : Threads ι T × List (Event ι T) => Accounted t.1 ∧ ∃ claimed, Inv t claimed) ?_
    ⟨accounted_start, false, inv_start⟩ (Runs.Along.of_forall (P := fun _ _ => True) fun _ _ => trivial) hs
  intro t m t' ht _ hstep
  obtain ⟨hacc, claimed, hinv⟩ := ht
  obtain ⟨t₁, ht₁, hinv₁⟩ := @Inv.step _ _ _ checks _ _ hinv m
  obtain rfl : t' = t₁ := Except.ok.inj (hstep.symm.trans ht₁)
  obtain ⟨x, hx, rfl⟩ := Runs.logged_eq_ok.mp hstep
  exact ⟨hacc.step hinv hx, _, hinv₁⟩

/-! ## What is given back -/

/-- The loop of `Drop` where only the first bucket is in use. -/
theorem dropFrom_first (layout : ℕ → Layout) {ptrs : Fin ptrWidth → Option Ptr} (hrest : ∀ k, k ≠ 0 → ptrs k = none)
    (mem : Ptr → Option (Cell T)) : dropFrom layout ptrs mem (List.finRange ptrWidth) =
      match ptrs 0 with
      | none => .ok mem
      | some p => dealloc mem p (layout 1) := by
  obtain ⟨is, his⟩ : ∃ is, List.finRange ptrWidth = 0 :: 1 :: is := ⟨_, rfl⟩
  have hone : ptrs 1 = none := hrest 1 (by decide)
  rw [his]
  unfold dropFrom
  cases ptrs 0 with
  | none => rfl
  | some p =>
    change (dealloc mem p (layout 1) >>= fun mem => dropFrom layout ptrs mem (1 :: is)) = dealloc mem p (layout 1)
    unfold dropFrom
    simp only [hone]
    exact bind_pure _

/-- It gives back what the first pointer is to, and leaves the rest as it is. -/
theorem dropFrom_frees {layout : ℕ → Layout} {ptrs : Fin ptrWidth → Option Ptr} (hrest : ∀ k, k ≠ 0 → ptrs k = none)
    {mem : Ptr → Option (Cell T)} (hcell : ∀ p, ptrs 0 = some p → ∃ cell, mem p = some cell ∧ cell.layout = layout 1) :
    ∃ mem', dropFrom layout ptrs mem (List.finRange ptrWidth) = .ok mem' ∧ (∀ p, ptrs 0 = some p → mem' p = none) ∧
      ∀ p, ptrs 0 ≠ some p → mem' p = mem p := by
  rw [dropFrom_first layout hrest]
  cases hfirst : ptrs 0 with
  | none => exact ⟨mem, rfl, by simp, fun _ _ => rfl⟩
  | some p =>
    obtain ⟨cell, hp, hlayout⟩ := hcell p hfirst
    have hdealloc : dealloc mem p (layout 1) = .ok (Function.update mem p none) := by
      unfold dealloc
      simp only [hp, if_pos hlayout]
    refine ⟨_, hdealloc, ?_, ?_⟩
    · intro q hq
      cases hq
      exact Function.update_self p none mem
    · intro q hq
      have hne : q ≠ p := by
        intro heq
        exact hq (congrArg some heq.symm)
      exact Function.update_of_ne hne none mem

/-- Wherever the threads are: `Drop` gives back, each once and with its layout, all pieces of memory but those that threads inside of
`push` hold, and these are as they were. When no thread is inside of `push`, none is left. -/
theorem drop_gives_back {checks : Bool} {moves : List (ι × Move T)} {s : Threads ι T × List (Event ι T)}
    (hs : Runs.exec (Runs.logged (Threads.step checks)) (Threads.start, []) moves = .ok s) :
    ∃ mem, s.1.vec.drop s.1.mem = .ok mem ∧
      (∀ p, (∃ i, (s.1.pc i).holds = some p) → mem p = s.1.mem p) ∧
      (∀ p, (¬∃ i, (s.1.pc i).holds = some p) → mem p = none) ∧
      ((∀ i, s.1.pc i = .idle ∨ s.1.pc i = .panicked) → mem = fun _ => none) := by
  obtain ⟨hacc, claimed, ph, hinv⟩ := accounted_of_exec hs
  obtain ⟨mem₁, hmem₁, hgone₁, hkept₁⟩ := @dropFrom_frees _ .vals _ hacc.buckets s.1.mem fun p hp => by
    obtain ⟨v, hv⟩ := hinv.of_buckets hp
    exact ⟨_, hv, rfl⟩
  obtain ⟨mem, hmem, hgone, hkept⟩ := @dropFrom_frees _ .words _ hacc.bucketMeta mem₁ fun p hp => by
    obtain ⟨w, hw⟩ := hinv.of_bucketMeta hp
    refine ⟨.word w, ?_, rfl⟩
    rw [hkept₁, hw]
    intro hbucket
    obtain ⟨v, hv⟩ := hinv.of_buckets hbucket
    rw [hw] at hv
    cases hv
  have hunheld : ∀ p, (¬∃ i, (s.1.pc i).holds = some p) → mem p = none := by
    intro p hp
    by_cases hmeta : s.1.vec.bucketMeta 0 = some p
    · exact hgone p hmeta
    · rw [hkept p hmeta]
      by_cases hbucket : s.1.vec.buckets 0 = some p
      · exact hgone₁ p hbucket
      · rw [hkept₁ p hbucket]
        by_contra hne
        rcases hacc.cells p hne with h | h | h
        · exact hmeta h
        · exact hbucket h
        · exact hp h
  refine ⟨mem, ?_, ?_, hunheld, ?_⟩
  · unfold drop
    rw [hmem₁, ok_bind, hmem]
  · intro p ⟨i, hi⟩
    obtain ⟨hmeta, hbucket⟩ := hinv.of_holds hi
    rw [hkept p hmeta, hkept₁ p hbucket]
  · intro hout
    funext p
    refine hunheld p fun ⟨i, hi⟩ => ?_
    rcases hout i with h | h
    · rw [h] at hi
      cases hi
    · rw [h] at hi
      cases hi

/-- Two threads find the vector empty; the first gets no memory for its value and panics, the second has yet to give back its word. -/
theorem drop_gives_back_run :
    ∃ s mem, Runs.exec (Runs.logged (Threads.step true)) (Threads.start, [])
        ([(0, .push 5), (1, .push 6), (0, .next none), (1, .next none), (0, .next (some 10)), (1, .next (some 11)), (0, .next none),
          (1, .next none), (0, .next none)] : List (Fin 2 × Move ℕ)) = .ok s ∧
      s.1.vec.drop s.1.mem = .ok mem ∧ mem 11 = some (.word 1) ∧ mem 10 = none := by
  obtain ⟨s, hs, hword, hpc⟩ : ∃ s, Runs.exec (Runs.logged (Threads.step true)) (Threads.start, [])
      ([(0, .push 5), (1, .push 6), (0, .next none), (1, .next none), (0, .next (some 10)), (1, .next (some 11)), (0, .next none),
        (1, .next none), (0, .next none)] : List (Fin 2 × Move ℕ)) = .ok s ∧
      s.1.mem 11 = some (.word 1) ∧ (s.1.pc 0 = .panicked ∧ s.1.pc 1 = .lost 6 11 10) := ⟨_, rfl, rfl, rfl, rfl⟩
  obtain ⟨mem, hmem, hheld, hgone, -⟩ := drop_gives_back hs
  have hnone : ∀ i, (s.1.pc i).holds ≠ some 10 := by
    refine Fin.forall_fin_two.mpr ⟨?_, ?_⟩
    · rw [hpc.1]
      decide
    · rw [hpc.2]
      decide
  exact ⟨s, mem, hs, hmem, by rw [hheld 11 ⟨1, by rw [hpc.2]; rfl⟩, hword], hgone 10 fun ⟨i, hi⟩ => hnone i hi⟩

end MiriWeirdness.ConcVec
