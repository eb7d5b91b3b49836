import MiriWeirdness.Lemmas.ConcVecSteps

/-!
# Pushes that lost the exchange

A thread that finds the first bucket taken stays in the claim loop until every bit of the published word is set, and nothing that the
others do keeps it there longer than that. What comes then depends on the build, and in one without overflow checks on the winner too: if
the winner's allocation failed, no call of `push` returns any more.
-/

namespace MiriWeirdness.ConcVec

variable {ι T : Type}

/-! ## The claim loop -/

/-- The search at a word with no clear bit. -/
theorem firstFreeBit_of_full (checks : Bool) {val : HalfUsize} (hfull : ∀ k < 32, val.getLsbD k = true) :
    firstFreeBit checks val = if checks then .error .overflow else .ok none := by
  cases checks with
  | true => exact firstFreeFrom_panics_iff.mpr ⟨32, width_mem_shiftsFrom hfull (by decide) (by decide), Nat.le_refl _⟩
  | false =>
    have hround : ∀ rounds i, firstFreeFrom false val rounds i = .ok none := by
      intro rounds
      induction rounds with
      | zero => exact fun _ => rfl
      | succ rounds ih =>
        intro i
        have hmod : i % 32 < 32 := Nat.mod_lt i (by decide)
        have hbit : halfBit false i = .ok (1#32 <<< (i % 32)) := by
          unfold halfBit
          split
          · rename_i hi
            rw [Nat.mod_eq_of_lt hi]
            rfl
          · rfl
        have hset : ¬val &&& 1#32 <<< (i % 32) = 0 := by
          rw [and_halfBit_eq_zero hmod, hfull _ hmod]
          decide
        rw [firstFreeFrom, hbit, ok_bind, if_neg hset]
        exact ih (i + 1)
    exact hround 64 0

/-- Where a thread goes that finds the word full: it panics at the shift, or it calls `push` again. -/
def leaves (checks : Bool) (v : T) : Pc T := if checks then .panicked else .called v

/-- The thread lost the exchange with this value and has not left the claim loop. -/
inductive InLoop (v : T) (q : Ptr) : Pc T → Prop where
  | lost (p : Ptr) : InLoop v q (.lost v p q)
  | searching : InLoop v q (.searching v q)
  | claiming (b : HalfUsize) : InLoop v q (.claiming v q b)

theorem InLoop.reads {v : T} {q : Ptr} {c : Pc T} (h : InLoop v q c) : c.reads = some q := by
  cases h <;> rfl

theorem InLoop.loopLeft_pos {v : T} {q : Ptr} {c : Pc T} (h : InLoop v q c) (w : Usize) : 0 < loopLeft w c := by
  cases h <;> exact Nat.succ_pos _

/-- The steps of one thread in a schedule. -/
def ownSteps [DecidableEq ι] (i : ι) (moves : List (ι × Move T)) : ℕ :=
  moves.countP fun m =>
    match m.2 with
    | .push _ => false
    | .next _ => m.1 = i

variable [DecidableEq ι] {checks claimed : Bool} {s s' : Threads ι T × List (Event ι T)} {i : ι}

/-- A step of the thread itself: it leaves at a full word, or it has less to do. -/
theorem InLoop.own {v : T} {q : Ptr} {w : Usize} (hi : InLoop v q (s.1.pc i)) (hq : s.1.mem q = some (.word w)) {answer : Option Ptr}
    (hown : (s.1.pc i).owned ≠ some q) (h : Runs.logged (Threads.step checks) s (i, .next answer) = .ok s') :
    ((∀ k < 32, w.getLsbD k = true) ∧ s'.1.mem q = some (.word w) ∧ s'.1.pc i = leaves checks v) ∨
      (InLoop v q (s'.1.pc i) ∧ ∃ w', s'.1.mem q = some (.word w') ∧ loopLeft w' (s'.1.pc i) < loopLeft w (s.1.pc i)) := by
  obtain ⟨⟨t, es⟩, ht, rfl⟩ := Runs.logged_eq_ok.mp h
  change s.1.advance checks i answer = .ok (t, es) at ht
  unfold Threads.advance at ht
  generalize hpc : s.1.pc i = c at hi hown
  cases hi with
  | lost p =>
    simp only [hpc] at ht
    obtain ⟨x, -, ht⟩ := bind_eq_ok.mp ht
    cases ht
    have hpq : q ≠ p := by
      rintro rfl
      exact hown rfl
    refine Or.inr ⟨?_, w, (Function.update_of_ne hpq _ _).trans hq, ?_⟩
    · simpa [Threads.goto] using InLoop.searching
    · simp [Threads.goto, loopLeft]
  | searching =>
    simp only [hpc] at ht
    rw [load_eq_ok.mpr hq, ok_bind] at ht
    by_cases hfull : present w = BitVec.allOnes 32
    · left
      have hset : ∀ k < 32, (present w).getLsbD k = true := eq_allOnes_iff.mp hfull
      rw [firstFreeBit_of_full checks hset] at ht
      refine ⟨fun k hk => ?_, ?_⟩
      · have hk' := hset k hk
        rw [getLsbD_present, Bool.and_eq_true] at hk'
        exact hk'.2
      · cases checks with
        | true | false =>
          cases ht
          exact ⟨hq, by simp [Threads.goto, leaves]⟩
    · right
      obtain ⟨k, hk⟩ := exists_lowestClear hfull
      have hfree : firstFreeBit checks (present w) = .ok (some (1#32 <<< k)) :=
        (hk.firstFreeFrom (Nat.zero_le k) (by have := hk.inside; omega)).1
      rw [hfree] at ht
      cases ht
      refine ⟨by simpa [Threads.goto] using InLoop.claiming _, w, hq, ?_⟩
      have hmem : k ∈ clearBits w := by
        have hclear := hk.clear
        rw [getLsbD_present, decide_eq_true hk.inside, Bool.true_and] at hclear
        exact mem_clearBits.mpr ⟨hk.inside, hclear⟩
      have hout : k ∉ (clearBits w).filter fun j => (1#32 <<< k).getLsbD j = false := by
        intro hin
        have hbit := (Finset.mem_filter.mp hin).2
        simp [hk.inside] at hbit
      have hlt := Finset.card_lt_card ((Finset.ssubset_iff_of_subset (Finset.filter_subset _ _)).mpr ⟨k, hmem, hout⟩)
      simp only [Threads.goto, Function.update_self, loopLeft]
      omega
  | claiming b =>
    simp only [hpc] at ht
    rw [load_eq_ok.mpr hq, ok_bind] at ht
    cases ht
    refine Or.inr ⟨by simpa [Threads.goto] using InLoop.searching, _, Function.update_self q _ s.1.mem, ?_⟩
    simp [Threads.goto, loopLeft, clearBits_or]

/-- A step of another thread, or a call that is not made: the thread stays where it is, with no more to do. -/
theorem InLoop.others {v : T} {q : Ptr} {w : Usize} (hi : InLoop v q (s.1.pc i)) (hq : s.1.mem q = some (.word w))
    (hown : ∀ j, (s.1.pc j).owned ≠ some q) {m : ι × Move T} (hm : ownSteps i [m] = 0)
    (h : Runs.logged (Threads.step checks) s m = .ok s') :
    s'.1.pc i = s.1.pc i ∧ ∃ w', s'.1.mem q = some (.word w') ∧ loopLeft w' (s.1.pc i) ≤ loopLeft w (s.1.pc i) := by
  obtain ⟨⟨t, es⟩, ht, rfl⟩ := Runs.logged_eq_ok.mp h
  have hmoved := moved_of_step ht
  obtain ⟨w', hw', hgrows⟩ := hmoved.word hq (hown m.1)
  refine ⟨?_, w', hw', hgrows.loopLeft_le _⟩
  by_cases hmi : i = m.1
  · obtain ⟨j, move⟩ := m
    obtain rfl : i = j := hmi
    cases move with
    | next answer => exact absurd hm (by simp [ownSteps])
    | push x =>
      generalize hpc : s.1.pc i = c at hi
      cases hi with
      | lost | searching | claiming =>
        simp only [Threads.step, hpc] at ht
        cases ht
        exact hpc
  · exact hmoved.pc_of_ne hmi

/-- In every schedule with enough steps of the thread it leaves the loop, at a word that is full. -/
theorem InLoop.leaves_of_inv (h : Inv s claimed) {v : T} {q : Ptr} {w : Usize} (hi : InLoop v q (s.1.pc i))
    (hq : s.1.mem q = some (.word w)) (moves : List (ι × Move T)) (hmoves : loopLeft w (s.1.pc i) ≤ ownSteps i moves) :
    ∃ before after s', moves = before ++ after ∧ Runs.exec (Runs.logged (Threads.step checks)) s before = .ok s' ∧
      s'.1.pc i = leaves checks v ∧ ∃ x, s'.1.mem q = some (.word x) ∧ ∀ k < 32, x.getLsbD k = true := by
  induction moves generalizing s claimed w with
  | nil => exact absurd hmoves (Nat.not_le.mpr (hi.loopLeft_pos w))
  | cons m moves ih =>
    obtain ⟨s₁, hs₁, h₁⟩ := @Inv.step _ _ _ checks _ _ h m
    have hown : ∀ j, (s.1.pc j).owned ≠ some q := by
      obtain ⟨ph, h⟩ := h
      intro j hj
      exact (h.owned j q hj).2 (h.reads i q hi.reads)
    have hcount : ownSteps i (m :: moves) = ownSteps i [m] + ownSteps i moves := @List.countP_append _ _ [m] moves
    have hone : ownSteps i [m] ≤ 1 := List.countP_le_length
    have hgoon : ∀ w', InLoop v q (s₁.1.pc i) → s₁.1.mem q = some (.word w') → loopLeft w' (s₁.1.pc i) ≤ ownSteps i moves →
        ∃ before after s', m :: moves = before ++ after ∧ Runs.exec (Runs.logged (Threads.step checks)) s before = .ok s' ∧
          s'.1.pc i = leaves checks v ∧ ∃ x, s'.1.mem q = some (.word x) ∧ ∀ k < 32, x.getLsbD k = true := by
      intro w' hi' hw' hle
      obtain ⟨before, after, s', heq, hexec, hend⟩ := ih h₁ hi' hw' hle
      exact ⟨m :: before, after, s', by rw [heq, List.cons_append], by rw [Runs.exec_cons_ok hs₁, hexec], hend⟩
    rcases Nat.eq_zero_or_pos (ownSteps i [m]) with hzero | hpos
    · obtain ⟨hpc, w', hw', hle⟩ := hi.others hq hown hzero hs₁
      exact hgoon w' (by rwa [hpc]) hw' (by rw [hpc]; omega)
    · obtain ⟨j, move⟩ := m
      cases move with
      | push x => exact absurd hpos (by simp [ownSteps])
      | next answer =>
        obtain rfl : j = i := by
          by_contra hji
          simp [ownSteps, hji] at hpos
        rcases hi.own hq (hown j) hs₁ with ⟨hfull, hw', hpc⟩ | ⟨hi', w', hw', hlt⟩
        · exact ⟨[(j, .next answer)], moves, s₁, rfl, by rw [Runs.exec_cons_ok hs₁, Runs.exec_nil], hpc, w, hw', hfull⟩
        · exact hgoon w' hi' hw' (by omega)

/-- A thread that has lost the exchange of the first bucket leaves the claim loop within 64 steps of its own, however the others' steps
fall in between: in a build with overflow checks by a panic, in one without by calling `push` again; and only when every bit is set. -/
theorem claim_loop_ends {moves : List (ι × Move T)} (hs : Runs.exec (Runs.logged (Threads.step checks)) (Threads.start, []) moves = .ok s)
    {v : T} {q : Ptr} (hloop : InLoop v q (s.1.pc i)) {more : List (ι × Move T)} (hmore : 64 ≤ ownSteps i more) :
    ∃ before after s', more = before ++ after ∧ Runs.exec (Runs.logged (Threads.step checks)) s before = .ok s' ∧
      s'.1.pc i = leaves checks v ∧ ∃ x, s'.1.mem q = some (.word x) ∧ ∀ k < 32, x.getLsbD k = true := by
  obtain ⟨t, claimed, ht, h, -⟩ := @Inv.run _ _ _ checks _ _ inv_start moves
  obtain rfl : s = t := Except.ok.inj (hs.symm.trans ht)
  obtain ⟨w, hw, hbit⟩ : ∃ w : Usize, s.1.mem q = some (.word w) ∧ w.getLsbD 0 = true := by
    obtain ⟨ph, h⟩ := h
    obtain ⟨w, hw, hbit, -⟩ := h.word q (h.reads i q hloop.reads)
    exact ⟨w, hw, hbit⟩
  have hcard : (clearBits w).card ≤ 31 := by
    have hsub : clearBits w ⊆ (Finset.range 32).erase 0 := by
      intro k hk
      obtain ⟨hlt, hclear⟩ := mem_clearBits.mp hk
      refine Finset.mem_erase.mpr ⟨?_, Finset.mem_range.mpr hlt⟩
      rintro rfl
      rw [hbit] at hclear
      cases hclear
    exact (Finset.card_le_card hsub).trans (by decide)
  have hleft : loopLeft w (s.1.pc i) ≤ 64 := by
    generalize s.1.pc i = c at hloop
    cases hloop with
    | lost | searching =>
      simp only [loopLeft]
      omega
    | claiming b =>
      have hfilter := Finset.card_filter_le (clearBits w) fun k => b.getLsbD k = false
      simp only [loopLeft]
      omega
  exact hloop.leaves_of_inv h hw more (hleft.trans hmore)

/-- Two threads find the vector empty and allocate a metadata word each; the first wins the exchange and the second loses it. -/
def duel : List (ℕ × Move ℕ) :=
  [(0, .push 5), (1, .push 6), (0, .next none), (1, .next none), (0, .next (some 10)), (1, .next (some 11)), (0, .next none),
    (1, .next none)]

theorem claim_loop_ends_run :
    ∃ before after s', List.replicate 64 ((1, .next none) : ℕ × Move ℕ) = before ++ after ∧
      Runs.exec (Runs.logged (Threads.step true)) (Threads.start, []) (duel ++ before) = .ok s' ∧ s'.1.pc 1 = .panicked ∧
      ∃ x, s'.1.mem 10 = some (.word x) ∧ ∀ k < 32, x.getLsbD k = true := by
  obtain ⟨s, hs, hpc⟩ : ∃ s, Runs.exec (Runs.logged (Threads.step true)) (Threads.start, []) duel = .ok s ∧
      s.1.pc 1 = .lost 6 11 10 := ⟨_, rfl, rfl⟩
  obtain ⟨before, after, s', heq, hexec, hend⟩ := @claim_loop_ends ℕ ℕ _ true s 1 _ hs 6 10 (by rw [hpc]; exact .lost 11)
    (List.replicate 64 (1, .next none)) (by decide)
  exact ⟨before, after, s', heq, Runs.exec_append.mpr ⟨s, hs, hexec⟩, hend⟩

/-! ## A winner whose allocation fails -/

/-- The exchange was won, no thread is at work on the initialisation, and the bit of the bucket is not set. -/
structure Abandoned (s : Threads ι T) : Prop where
  metaAllocated : s.vec.metaAllocated = 0
  bucketMeta : s.vec.bucketMeta 0 ≠ none
  buckets : s.vec.buckets 0 = none
  winning : ∀ i, (s.pc i).winning = false

/-- A thread that is inside of `push` stays there. -/
theorem Abandoned.step {t t' : Threads ι T} (h : Abandoned t) {m : ι × Move T} {es : List (Event ι T)}
    (hs : t.step checks m = .ok (t', es)) : Abandoned t' ∧ ∀ j, t.pc j ≠ .idle → t'.pc j ≠ .idle := by
  have hupdate : ∀ {c : Pc T}, c.winning = false → c ≠ .idle →
      (∀ j, (Function.update t.pc m.1 c j).winning = false) ∧ ∀ j, t.pc j ≠ .idle → Function.update t.pc m.1 c j ≠ .idle := by
    intro c hwin hidle
    exact ⟨(Function.forall_update_iff t.pc fun _ d => d.winning = false).mpr ⟨hwin, fun j _ => h.winning j⟩,
      (Function.forall_update_iff t.pc fun j d => t.pc j ≠ .idle → d ≠ .idle).mpr ⟨fun _ => hidle, fun _ _ hj => hj⟩⟩
  cases moved_of_step hs with
  | stay => exact ⟨h, fun _ hj => hj⟩
  | goto c hholds hwin hidle =>
    obtain ⟨hw, hi⟩ := hupdate hwin fun hc => hidle hc h.metaAllocated
    exact ⟨{ h with winning := hw }, hi⟩
  | alloc p cell c hfree hheld hholds hwin =>
    obtain ⟨hw, hi⟩ := hupdate (hwin.trans (h.winning m.1)) fun hc => by
      rw [hc] at hholds
      cases hholds
    exact ⟨{ h with winning := hw }, hi⟩
  | publish v p hi hmeta => exact absurd hmeta h.bucketMeta
  | store p hi =>
    have hwin := h.winning m.1
    rw [hi] at hwin
    cases hwin
  | mark hi =>
    have hwin := h.winning m.1
    rw [hi] at hwin
    cases hwin
  | free v p q hi =>
    obtain ⟨hw, hi⟩ := @hupdate (.searching v q) rfl fun hc => by cases hc
    exact ⟨{ h with winning := hw }, hi⟩
  | claim v q b w hi hq =>
    obtain ⟨hw, hi⟩ := @hupdate (.searching v q) rfl fun hc => by cases hc
    exact ⟨{ h with winning := hw }, hi⟩

/-- The winner's allocation fails. -/
theorem Inv.abandoned (h : Inv s claimed) {v : T} (hi : s.1.pc i = .won v) {t : Threads ι T} {es : List (Event ι T)}
    (hs : s.1.step checks (i, .next none) = .ok (t, es)) : Abandoned t := by
  obtain ⟨ph, h⟩ := h
  have hw := h.winning i (by rw [hi]; rfl)
  rw [hi] at hw
  obtain ⟨m, rfl⟩ : ∃ m, ph = .won i m v := by
    cases hw
    exact ⟨_, rfl⟩
  have hstep : s.1.step checks (i, .next none) = .ok (s.1.goto i .panicked, []) := by
    simp only [Threads.step, Threads.advance, hi, Threads.alloc]
  obtain ⟨rfl, -⟩ := Prod.mk.inj (Except.ok.inj (hstep.symm.trans hs))
  have hmeta : s.1.vec.bucketMeta 0 = some m := h.bucketMeta
  refine ⟨h.metaAllocated, ?_, h.buckets, ?_⟩
  · intro hnone
    have hnone' : s.1.vec.bucketMeta 0 = none := hnone
    rw [hmeta] at hnone'
    cases hnone'
  · refine (Function.forall_update_iff s.1.pc fun _ d => d.winning = false).mpr ⟨rfl, fun j hji => ?_⟩
    by_contra hj
    rw [Bool.not_eq_false] at hj
    exact hji ((h.winning j hj).unique hw)

theorem Abandoned.exec (h : Abandoned s.1) {moves : List (ι × Move T)}
    (hs : Runs.exec (Runs.logged (Threads.step checks)) s moves = .ok s') :
    Abandoned s'.1 ∧ ∀ j, s.1.pc j ≠ .idle → s'.1.pc j ≠ .idle := by
  refine Runs.invariant (fun t : Threads ι T × List (Event ι T) => Abandoned t.1 ∧ ∀ j, s.1.pc j ≠ .idle → t.1.pc j ≠ .idle) ?_
    ⟨h, fun _ hj => hj⟩ (Runs.Along.of_forall (P := fun _ _ => True) fun _ _ => trivial) hs
  intro t m t' ht _ hstep
  obtain ⟨x, hx, rfl⟩ := Runs.logged_eq_ok.mp hstep
  obtain ⟨ht', hidle⟩ := ht.1.step hx
  exact ⟨ht', fun j hj => hidle j (ht.2 j hj)⟩

/-- When the allocation for the value of the thread that won the exchange fails, the bit of the bucket is never set, and no call of `push`
that is under way then or starts later ever returns. -/
theorem none_returns_after_failed_allocation {moves : List (ι × Move T)}
    (hs : Runs.exec (Runs.logged (Threads.step checks)) (Threads.start, []) moves = .ok s) {v : T} (hi : s.1.pc i = .won v)
    {more : List (ι × Move T)} (hs' : Runs.exec (Runs.logged (Threads.step checks)) s ((i, .next none) :: more) = .ok s')
    (later : List (ι × Move T)) :
    ∃ t, Runs.exec (Runs.logged (Threads.step checks)) s' later = .ok t ∧ t.1.vec.metaAllocated = 0 ∧ t.1.vec.buckets 0 = none ∧
      ∀ j, s'.1.pc j ≠ .idle → t.1.pc j ≠ .idle := by
  obtain ⟨u, claimed, hu, h, -⟩ := @Inv.run _ _ _ checks _ _ inv_start moves
  obtain rfl : s = u := Except.ok.inj (hs.symm.trans hu)
  obtain ⟨u, claimed', hu, h', -⟩ := @Inv.run _ _ _ checks _ _ h ((i, .next none) :: more)
  obtain rfl : s' = u := Except.ok.inj (hs'.symm.trans hu)
  obtain ⟨s₁, hs₁, hs'⟩ := Runs.exec_cons_eq_ok.mp hs'
  obtain ⟨x, hx, rfl⟩ := Runs.logged_eq_ok.mp hs₁
  have hfailed : Abandoned (x.1, s.2 ++ x.2).1 := h.abandoned hi hx
  obtain ⟨habandoned, -⟩ := hfailed.exec hs'
  obtain ⟨t, -, ht, -⟩ := @Inv.run _ _ _ checks _ _ h' later
  obtain ⟨ht', hidle⟩ := habandoned.exec ht
  exact ⟨t, ht, ht'.metaAllocated, ht'.buckets, hidle⟩

/-- The first thread of two wins the exchange and gets no memory for its value; the second is still not back many steps later. -/
theorem none_returns_after_failed_allocation_run :
    ∃ s' t, Runs.exec (Runs.logged (Threads.step false)) (Threads.start, []) (duel ++ [(0, .next none)]) = .ok s' ∧
      Runs.exec (Runs.logged (Threads.step false)) s' (List.replicate 200 (1, .next (some 12))) = .ok t ∧ t.1.pc 1 ≠ .idle := by
  obtain ⟨s, s', hs, hs', hwon, hlost⟩ : ∃ s s', Runs.exec (Runs.logged (Threads.step false)) (Threads.start, []) duel = .ok s ∧
      Runs.exec (Runs.logged (Threads.step false)) s [(0, .next none)] = .ok s' ∧ s.1.pc 0 = .won 5 ∧ s'.1.pc 1 = .lost 6 11 10 :=
    ⟨_, _, rfl, rfl, rfl, rfl⟩
  obtain ⟨t, ht, -, -, hidle⟩ := @none_returns_after_failed_allocation ℕ ℕ _ false s s' 0 _ hs 5 hwon [] hs' _
  exact ⟨s', t, Runs.exec_append.mpr ⟨s, hs, hs'⟩, ht, hidle 1 (by rw [hlost]; decide)⟩

end MiriWeirdness.ConcVec
