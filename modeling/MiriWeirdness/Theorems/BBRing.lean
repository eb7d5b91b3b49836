import MiriWeirdness.Lemmas.RingQueue

/-!
# What one thread sees of the byte ring

`push` writes its record at `head`, which is never reset, and `pop_front` reads at `head % cap`. The ring is a queue as long as it has
not gone round, and no longer. The fields of its markers are the totals of the run until the 65536th accepted push, whose reservation
carries into the count of finished pushes.
-/

namespace MiriWeirdness

/-! ## The fields of a word -/

namespace Marker

/-- The fields of a word of `B` bits are independent for these counters: a marker gives its own counters back, after another marker has
been added to it it gives the sums, and after that has been subtracted again its own. -/
structure FieldWise (B h l f h' l' f' : ℕ) : Prop where
  new : Reads (Marker.new (BitVec.ofNat B h) (BitVec.ofNat B l) (BitVec.ofNat B f)) h l f
  add : Reads ⟨(Marker.new (BitVec.ofNat B h) (BitVec.ofNat B l) (BitVec.ofNat B f)).raw +
    (Marker.new (BitVec.ofNat B h') (BitVec.ofNat B l') (BitVec.ofNat B f')).raw⟩ (h + h') (l + l') (f + f')
  sub : Reads ⟨(Marker.new (BitVec.ofNat B h) (BitVec.ofNat B l) (BitVec.ofNat B f)).raw +
    (Marker.new (BitVec.ofNat B h') (BitVec.ofNat B l') (BitVec.ofNat B f')).raw -
      (Marker.new (BitVec.ofNat B h') (BitVec.ofNat B l') (BitVec.ofNat B f')).raw⟩ h l f

/-- On both pointer widths, for all counters whose sums fit their fields: the fields are independent exactly if the pointers have 64
bits, or on 32 bits if none of the counts of operations is used. -/
theorem fieldWise_iff {B h l f h' l' f' : ℕ} (hB : B = 64 ∨ B = 32) (hh : h + h' < 2 ^ (B / 2)) (hl : l + l' < 2 ^ (B / 4))
    (hf : f + f' < 2 ^ (B / 4)) : FieldWise B h l f h' l' f' ↔ B = 64 ∨ l + l' = 0 ∧ f + f' = 0 := by
  rcases hB with rfl | rfl
  · refine iff_of_true ?_ (Or.inl rfl)
    have hnew : Reads (Marker.new (BitVec.ofNat 64 h) (BitVec.ofNat 64 l) (BitVec.ofNat 64 f)) h l f :=
      reads_of_pack (toNat_raw_new rfl rfl rfl (by omega) (by omega) (by omega)) (by omega) (by omega) (by omega)
    refine ⟨hnew, ?_, ?_⟩
    · exact reads_of_pack (toNat_raw_add rfl rfl rfl hh hl hf) hh hl hf
    · rw [BitVec.add_sub_cancel]
      exact hnew
  · have hnew : Reads (Marker.new (BitVec.ofNat 32 h) (BitVec.ofNat 32 l) (BitVec.ofNat 32 f)) h l f ↔ l = 0 ∧ f = 0 :=
      reads_iff_of_pack (toNat_raw_new rfl rfl rfl (by omega) (by omega) (by omega)) (by omega) (by omega) (by omega)
    have hadd := reads_iff_of_pack (toNat_raw_add (B := 32) rfl rfl rfl hh hl hf) hh hl hf
    constructor
    · intro hw
      exact Or.inr (hadd.mp hw.add)
    · rintro (hB | hz)
      · omega
      · have hnew' := hnew.mpr (by omega)
        refine ⟨hnew', hadd.mpr hz, ?_⟩
        rw [BitVec.add_sub_cancel]
        exact hnew'

/-- On 64 bits, with fields that are nearly full. -/
theorem fieldWise_iff_full : FieldWise 64 4294967290 65530 65535 5 5 0 ↔ 64 = 64 ∨ 65530 + 5 = 0 ∧ 65535 + 0 = 0 :=
  fieldWise_iff (Or.inl rfl) (by decide) (by decide) (by decide)

/-- On 32 bits the head of a marker with one reservation is 2^16, not 0. -/
theorem head_includes_len : ¬FieldWise 32 0 1 0 0 0 0 ∧ (Marker.new (B := 32) 0 1 0).head = BitVec.ofNat 32 (2 ^ 16) :=
  ⟨fun h => absurd h.new.head (by decide), by decide⟩

end Marker

/-! ## The queue -/

namespace Client

/-- A run of one thread on a fresh ring, each guard dropped before the next pop, stays inside of the buffer and shows what a first-in
first-out queue can show, if and only if every push for which the capacity check finds room ends inside of the buffer. -/
theorem queue_iff_fits {cap : ℕ} {mem : Buffer.Bytes} {r : BBRing} (hr : BBRing.new cap (some mem) = .ok r)
    (ops : List (RingOp (List UInt8))) (hops : Runs.Along (Runs.logged step) DropsFirst (start r) ops) :
    (∃ s, Runs.exec (Runs.logged step) (start r) ops = .ok s ∧ (Fifo.replay [] s.2).isSome) ↔
      Runs.Along (Runs.logged step) Fits (start r) ops := by
  constructor
  · rintro ⟨s, hs, -⟩
    exact Runs.Along.of_exec (fun _ _ _ => fits_of_step) hs
  · intro hfits
    obtain ⟨s, hs, dropped, held, pending, hq⟩ := Runs.progress_history (P := fun s op => DropsFirst s op ∧ Fits s op)
      (fun _ s => ∃ dropped held pending, Queues s dropped held pending) ⟨[], [], [], queues_start hr⟩
      (fun _ _ _ _ ⟨_, _, _, hq⟩ h => hq.step h.1 h.2) (hops.and hfits)
    refine ⟨s, hs, ?_⟩
    rw [hq.replay]
    rfl

/-- A run in which a push comes between a pop and the drop of its guard, and the last pop returns the record of the fourth push. -/
theorem queue_iff_fits_run :
    ∃ s, Runs.exec (Runs.logged step) (start { marker := 0, removeMarker := 0, buf := fun _ => 0, cap := 30 })
        [.push [1, 2, 3], .push [], .popFront, .push [7], .push [1, 2, 3, 4, 5, 6, 7, 8], .drop 0, .popFront, .drop 0, .popFront, .drop 0,
          .popFront] = .ok s ∧ (Fifo.replay [] s.2).isSome :=
  (@queue_iff_fits 30 (fun _ => 0) _ rfl _ (by decide)).mpr (by decide)

/-- A ring of capacity 10 holds one record of five bytes at a time, and the third one it accepts is written behind its buffer. -/
theorem push_leaves_buffer :
    Runs.Along (Runs.logged step) DropsFirst (start { marker := 0, removeMarker := 0, buf := fun _ => 0, cap := 10 })
        [.push [1], .popFront, .drop 0, .push [2], .popFront, .drop 0, .push [3]] ∧
      Runs.exec (Runs.logged step) (start { marker := 0, removeMarker := 0, buf := fun _ => 0, cap := 10 })
        [.push [1], .popFront, .drop 0, .push [2], .popFront, .drop 0, .push [3]] = .error .outOfBounds :=
  ⟨by decide, rfl⟩

/-! ## Pops while guards are held -/

/-- A pop, called now, does not wait for its own caller: if it passes the emptiness check, as many pops are finished as were begun, and
it returns. -/
structure PopReturns (r : BBRing) : Prop where
  finished : (Marker.mk r.removeMarker).len < (Marker.mk r.marker).finishedLen →
    (Marker.mk r.removeMarker).finishedLen = (Marker.mk r.removeMarker).len
  returns : ∃ x, r.popFront = .ok x

theorem Queues.popReturns_iff {s : Client × List (Fifo.Event (List UInt8))} {dropped held pending : List (List UInt8)}
    (h : Queues s dropped held pending) : PopReturns s.1.ring ↔ s.1.guards = [] ∨ pending = [] := by
  rcases h.guards with ⟨rfl, hg⟩ | ⟨d, rfl, hg⟩
  · refine iff_of_true ⟨fun _ => ?_, ?_⟩ (Or.inl hg)
    · rw [← BitVec.toNat_inj, h.remFinishedLen, h.remLen, List.append_nil]
    · obtain ⟨s', -, -, hs, -⟩ := h.popFront hg
      obtain ⟨x, hx, -⟩ := Runs.logged_eq_ok.mp hs
      cases hpop : s.1.ring.popFront with
      | ok x => exact ⟨x, rfl⟩
      | error f => simp [Client.step, hpop] at hx
  · cases pending with
    | nil =>
      refine iff_of_true ⟨fun hlt => ?_, _, h.popFront_nil⟩ (Or.inr rfl)
      rw [BitVec.lt_def, h.finishedLen, h.remLen, List.append_nil] at hlt
      exact absurd hlt (lt_irrefl _)
    | cons p pending =>
      refine iff_of_false ?_ (by simp [hg])
      rintro ⟨-, x, hx⟩
      rw [h.popFront_held] at hx
      cases hx

/-- In every state that a run of one thread reaches, whatever guards it holds, a call of `pop_front` returns, and passes the emptiness
check only when all pops before it are finished, exactly if no guard is held or every accepted payload has been popped. -/
theorem popFront_returns_iff {cap : ℕ} {mem : Buffer.Bytes} {r : BBRing} (hr : BBRing.new cap (some mem) = .ok r)
    (ops : List (RingOp (List UInt8))) (s : Client × List (Fifo.Event (List UInt8)))
    (h : Runs.exec (Runs.logged step) (start r) ops = .ok s) :
    PopReturns s.1.ring ↔ s.1.guards = [] ∨ Fifo.replay [] s.2 = some [] := by
  obtain ⟨dropped, held, pending, hq⟩ := queues_of_run hr h
  rw [hq.popReturns_iff, hq.replay, Option.some_inj]

/-- A run in which a pop finds nothing while a guard is held. -/
theorem popFront_returns_run :
    ∃ s, Runs.exec (Runs.logged step) (start { marker := 0, removeMarker := 0, buf := fun _ => 0, cap := 30 })
        [.push [1, 2, 3], .popFront, .popFront] = .ok s ∧
      (PopReturns s.1.ring ↔ s.1.guards = [] ∨ Fifo.replay [] s.2 = some []) :=
  ⟨_, rfl, @popFront_returns_iff 30 (fun _ => 0) _ rfl [.push [1, 2, 3], .popFront, .popFront] _ rfl⟩

/-- Two records, and a second pop while the guard of the first is held. -/
theorem popFront_waits_for_guard :
    ∃ s, Runs.exec (Runs.logged step) (start { marker := 0, removeMarker := 0, buf := fun _ => 0, cap := 30 })
        [.push [1], .push [2], .popFront] = .ok s ∧ s.1.ring.popFront = .error .hang ∧ ¬PopReturns s.1.ring := by
  refine ⟨_, rfl, rfl, ?_⟩
  rintro ⟨-, x, hx⟩
  cases hx

end Client

/-! ## The counters -/

namespace CountedClient

/-- The fields of the markers are the totals of the run, each modulo its own width: bytes, number and number published of the accepted
pushes, and bytes of the finished pops, number and number finished of the pops. -/
structure FieldsCount (s : CountedClient) : Prop where
  head : (Marker.mk s.marks.marker).head.toNat = recordBytes s.accepted % 2 ^ 32
  len : (Marker.mk s.marks.marker).len.toNat = s.accepted.length % 2 ^ 16
  finishedLen : (Marker.mk s.marks.marker).finishedLen.toNat = s.accepted.length % 2 ^ 16
  remHead : (Marker.mk s.marks.removeMarker).head.toNat = recordBytes s.dropped % 2 ^ 32
  remLen : (Marker.mk s.marks.removeMarker).len.toNat = s.popped.length % 2 ^ 16
  remFinishedLen : (Marker.mk s.marks.removeMarker).finishedLen.toNat = s.dropped.length % 2 ^ 16

theorem Counts.fieldsCount {cap : ℕ} {s : CountedClient} (h : Counts cap s) (hcap : cap < maxCap) : FieldsCount s := by
  have hbytes := h.accepted_bytes hcap
  have hdbytes := recordBytes_mono h.dropped_accepted
  have hfew := h.few
  have hp := h.popped.length_le
  have hd := h.dropped_accepted.length_le
  have hh : recordBytes s.accepted < 2 ^ 32 := by omega
  have hrh : recordBytes s.dropped < 2 ^ 32 := by omega
  have hrl : s.popped.length < 2 ^ 16 := by omega
  have hrf : s.dropped.length < 2 ^ 16 := by omega
  refine ⟨?_, ?_, ?_, ?_, ?_, ?_⟩
  · rw [h.marks, Markers.counting_marker, Marker.head_word hh hfew hfew, Nat.mod_eq_of_lt hh]
  · rw [h.marks, Markers.counting_marker, Marker.len_word hh hfew hfew, Nat.mod_eq_of_lt hfew]
  · rw [h.marks, Markers.counting_marker, Marker.finishedLen_word hh hfew hfew, Nat.mod_eq_of_lt hfew]
  · rw [h.marks, Markers.counting_removeMarker, Marker.head_word hrh hrl hrf, Nat.mod_eq_of_lt hrh]
  · rw [h.marks, Markers.counting_removeMarker, Marker.len_word hrh hrl hrf, Nat.mod_eq_of_lt hrl]
  · rw [h.marks, Markers.counting_removeMarker, Marker.finishedLen_word hrh hrl hrf, Nat.mod_eq_of_lt hrf]

/-- The turn of a push that passes the capacity check has come when it starts, unless its reservation carries. -/
theorem Counts.isTurn_iff {cap n : ℕ} {s : CountedClient} (h : Counts cap s) (hcap : cap < maxCap)
    (hn : (s.marks.reserve n).2.full cap ⟨s.marks.marker⟩ n = .ok false) :
    (s.marks.reserve n).2.isTurn ⟨s.marks.marker⟩ = true ↔ s.accepted.length + 1 < 2 ^ 16 := by
  have hbytes := h.accepted_bytes hcap
  have hfew := h.few
  have hp := h.popped.length_le
  have hd := h.dropped_accepted.length_le
  rw [h.marks] at hn ⊢
  rw [Markers.counting_marker, Markers.full_reserve (by omega) hfew hfew (recordBytes_mono h.dropped_accepted) (by omega) (by omega)] at hn
  have hroom : ¬recordBytes s.accepted - recordBytes s.dropped + n + headerSize ≥ cap := of_decide_eq_false (Except.ok.inj hn)
  have hdle := recordBytes_mono h.dropped_accepted
  rw [Markers.counting_marker, Markers.isTurn_reserve (by omega) hfew]

/-- After every run that returns, the fields of the markers are the totals of the run, and the wait of a push that passes the capacity
check is over when it starts exactly if fewer than 2^16 - 1 pushes have been accepted before. -/
theorem wait_over_iff (cap : ℕ) (hcap : cap < maxCap) (ops : List (RingOp ℕ)) (hops : Runs.Along (step cap) DropsFirst start ops)
    (s : CountedClient) (h : Runs.exec (step cap) start ops = .ok s) :
    FieldsCount s ∧ ∀ n, (s.marks.reserve n).2.full cap ⟨s.marks.marker⟩ n = .ok false →
      ((s.marks.reserve n).2.isTurn ⟨s.marks.marker⟩ = true ↔ s.accepted.length + 1 < 2 ^ 16) := by
  have hI := counts_of_run hcap hops h
  exact ⟨hI.fieldsCount hcap, fun n hn => hI.isTurn_iff hcap hn⟩

/-- A push, a pop and the drop of its guard, a number of times. -/
def rounds : ℕ → List (RingOp ℕ)
  | 0 => []
  | k + 1 => rounds k ++ [.push 0, .popFront, .drop 0]

/-- The state after some rounds. -/
def afterRounds (k : ℕ) : CountedClient where
  marks := Markers.counting (4 * k) k k (4 * k) k k
  accepted := List.replicate k 0
  popped := List.replicate k 0
  dropped := List.replicate k 0
  guards := []

/-- A round is counted, and it drops its guard before the next one pops. -/
theorem round_counts {k : ℕ} (hk : k + 1 < 2 ^ 16) :
    Runs.exec (step 100) (afterRounds k) [.push 0, .popFront, .drop 0] = .ok (afterRounds (k + 1)) ∧
      Runs.Along (step 100) DropsFirst (afterRounds k) [.push 0, .popFront, .drop 0] := by
  obtain ⟨s₁, hs₁⟩ : ∃ s₁, s₁ = { afterRounds k with
      marks := Markers.counting (4 * k + 4) (k + 1) (k + 1) (4 * k) k k, accepted := List.replicate (k + 1) 0 } := ⟨_, rfl⟩
  obtain ⟨s₂, hs₂⟩ : ∃ s₂, s₂ = { s₁ with
      marks := Markers.counting (4 * k + 4) (k + 1) (k + 1) (4 * k) (k + 1) k, popped := List.replicate (k + 1) 0, guards := [0] } :=
    ⟨_, rfl⟩
  have hpush : (afterRounds k).step 100 (.push 0) = .ok s₁ := by
    have hp := @Markers.push_counting (4 * k) k (4 * k) k k 0 100 (by omega) (by omega) (by omega) (by omega) (by omega)
    rw [if_neg (by simp [headerSize]), if_pos hk] at hp
    simp only [step, afterRounds, hp, ok_bind, if_true, hs₁, List.replicate_succ']
    rfl
  have hpop : s₁.step 100 .popFront = .ok s₂ := by
    have hp := @Markers.popFront_counting (4 * k + 4) (k + 1) (k + 1) (4 * k) k (by omega) hk (by omega) hk (by omega)
    simp [step, hp, hs₁, hs₂, afterRounds, List.replicate_succ']
  have hdrop : s₂.step 100 (.drop 0) = .ok (afterRounds (k + 1)) := by
    have hd := @Markers.dropGuard_counting (4 * k + 4) (k + 1) (k + 1) (4 * k) (k + 1) k 0 (by decide)
    simp [step, hd, hs₁, hs₂, afterRounds, List.replicate_succ', headerSize, Nat.mul_succ]
  refine ⟨?_, (by rintro ⟨⟩), fun s h => ?_⟩
  · rw [Runs.exec_cons_ok hpush, Runs.exec_cons_ok hpop, Runs.exec_cons_ok hdrop, Runs.exec_nil]
  · obtain rfl : s₁ = s := Except.ok.inj (hpush.symm.trans h)
    exact ⟨fun _ => by rw [hs₁]; rfl, fun _ _ => ⟨(by rintro ⟨⟩), fun _ _ => trivial⟩⟩

theorem rounds_count {k : ℕ} (hk : k < 2 ^ 16) :
    Runs.exec (step 100) start (rounds k) = .ok (afterRounds k) ∧ Runs.Along (step 100) DropsFirst start (rounds k) := by
  induction k with
  | zero =>
    refine ⟨?_, trivial⟩
    have hzero : start = afterRounds 0 := by simp [start, afterRounds, Markers.counting, Marker.word, Packed.pack]
    rw [hzero]
    rfl
  | succ k ih =>
    obtain ⟨hrun, hops⟩ := ih (by omega)
    obtain ⟨hround, hround'⟩ := round_counts hk
    refine ⟨Runs.exec_append.mpr ⟨_, hrun, hround⟩, hops.append fun s hs => ?_⟩
    obtain rfl : afterRounds k = s := Except.ok.inj (hrun.symm.trans hs)
    exact hround'

/-- A ring of capacity 100 into which 2^16 - 1 empty records have been pushed, each popped and dropped before the next, is empty and
does not turn the next push away, and that push waits for ever. -/
theorem push_hangs_after_rounds :
    ∃ k s, k = 2 ^ 16 - 1 ∧ Runs.Along (step 100) DropsFirst start (rounds k) ∧ Runs.exec (step 100) start (rounds k) = .ok s ∧
      (s.marks.reserve 0).2.full 100 ⟨s.marks.marker⟩ 0 = .ok false ∧
      (s.marks.reserve 0).2.isTurn ⟨s.marks.marker⟩ = false ∧ s.step 100 (.push 0) = .error .hang := by
  obtain ⟨k, hk⟩ : ∃ k, k = 2 ^ 16 - 1 := ⟨_, rfl⟩
  obtain ⟨hrun, hops⟩ := rounds_count (by omega : k < 2 ^ 16)
  have hfull := @Markers.full_reserve (4 * k) k k (4 * k) k k 0 100 (by omega) (by omega) (by omega) (by omega) (by omega) (by omega)
  have hturn := @Markers.isTurn_reserve (4 * k) k (4 * k) k k 0 (by simp only [headerSize]; omega) (by omega)
  have hpush := @Markers.push_counting (4 * k) k (4 * k) k k 0 100 (by omega) (by omega) (by omega) (by omega) (by omega)
  rw [if_neg (by simp [headerSize]), if_neg (by omega)] at hpush
  refine ⟨k, afterRounds k, hk, hops, hrun, ?_, ?_, ?_⟩
  · exact hfull.trans (by rw [decide_eq_false (by simp [headerSize])])
  · exact Bool.eq_false_iff.mpr fun h => by
      have := hturn.mp h
      omega
  · simp [step, afterRounds, hpush]

/-- A run in which a push comes between a pop and the drop of its guard. -/
theorem wait_over_run :
    ∃ s, Runs.exec (step 100) start [.push 3, .push 90, .push 5, .popFront, .push 2, .drop 0, .popFront] = .ok s ∧ FieldsCount s ∧
      ∀ n, (s.marks.reserve n).2.full 100 ⟨s.marks.marker⟩ n = .ok false →
        ((s.marks.reserve n).2.isTurn ⟨s.marks.marker⟩ = true ↔ s.accepted.length + 1 < 2 ^ 16) :=
  ⟨_, rfl, wait_over_iff 100 (by decide) [.push 3, .push 90, .push 5, .popFront, .push 2, .drop 0, .popFront] (by decide) _ rfl⟩

end CountedClient

end MiriWeirdness
