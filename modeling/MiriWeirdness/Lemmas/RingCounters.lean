import MiriWeirdness.Library.Runs
import MiriWeirdness.Lemmas.Marker

/-!
# The counters of a run

What the markers of a ring count in a run of one thread that drops each guard before its next pop: while fewer than 2^16 pushes have
been accepted, every field is the total it stands for. The byte counts cannot overflow first, for a record is shorter than the capacity,
and the capacity is below 2^15.
-/

namespace MiriWeirdness

/-- The bytes of records with these payload lengths. -/
def recordBytes (ns : List ℕ) : ℕ := (ns.map (headerSize + ·)).sum

@[simp] theorem recordBytes_nil : recordBytes [] = 0 := rfl

@[simp] theorem recordBytes_cons (n : ℕ) (ns : List ℕ) : recordBytes (n :: ns) = headerSize + n + recordBytes ns := by
  simp [recordBytes]

@[simp] theorem recordBytes_append (ms ns : List ℕ) : recordBytes (ms ++ ns) = recordBytes ms + recordBytes ns := by
  simp [recordBytes]

/-- Records that are all shorter than some bound. -/
theorem recordBytes_le {ns : List ℕ} {c : ℕ} (h : ∀ n ∈ ns, headerSize + n < c) : recordBytes ns ≤ ns.length * c := by
  induction ns with
  | nil => simp
  | cons n ns ih =>
    have hn := h n List.mem_cons_self
    have hns := ih fun m hm => h m (List.mem_cons_of_mem _ hm)
    rw [recordBytes_cons, List.length_cons, Nat.succ_mul]
    omega

/-- The capacities that `BBRing::new` takes. -/
def maxCap : ℕ := (2 ^ 16 - 1) / 2 - 1

namespace CountedClient

/-- A thread that has just created a ring. -/
def start : CountedClient := { marks := { marker := 0, removeMarker := 0 }, accepted := [], popped := [], dropped := [], guards := [] }

/-- The operation is not a pop while a guard is held. -/
def DropsFirst (s : CountedClient) (op : RingOp ℕ) : Prop := op = .popFront → s.guards = []

instance (s : CountedClient) (op : RingOp ℕ) : Decidable (s.DropsFirst op) :=
  inferInstanceAs (Decidable (op = .popFront → s.guards = []))

/-- The markers count the totals, and fewer than 2^16 records have been accepted. -/
structure Counts (cap : ℕ) (s : CountedClient) : Prop where
  marks : s.marks = Markers.counting (recordBytes s.accepted) s.accepted.length s.accepted.length (recordBytes s.dropped)
    s.popped.length s.dropped.length
  few : s.accepted.length < 2 ^ 16
  small : ∀ n ∈ s.accepted, headerSize + n < cap
  popped : s.popped <+: s.accepted
  dropped : s.popped = s.dropped ++ s.guards
  guards : s.guards.length ≤ 1

theorem start_counts (cap : ℕ) : Counts cap start := by
  refine ⟨?_, by decide, by simp [start], by simp [start], rfl, by decide⟩
  simp [start, Markers.counting, Marker.word, Packed.pack]

section

variable {cap : ℕ} {s s' : CountedClient}

theorem Counts.accepted_bytes (h : Counts cap s) (hcap : cap < maxCap) : recordBytes s.accepted + cap < 2 ^ 32 := by
  have hle := recordBytes_le h.small
  have hmul : s.accepted.length * cap ≤ 2 ^ 16 * 2 ^ 15 :=
    Nat.mul_le_mul (Nat.le_of_lt h.few) (by unfold maxCap at hcap; omega)
  have hc : cap < 2 ^ 15 := by
    unfold maxCap at hcap
    omega
  omega

theorem Counts.dropped_accepted (h : Counts cap s) : s.dropped <+: s.accepted :=
  (h.dropped ▸ List.prefix_append _ _ : s.dropped <+: s.popped).trans h.popped

theorem recordBytes_mono {ms ns : List ℕ} (h : ms <+: ns) : recordBytes ms ≤ recordBytes ns := by
  obtain ⟨ls, rfl⟩ := h
  simp

/-- A push: it is turned away by the capacity, it is the 65536th and hangs, or it is counted. -/
theorem Counts.push (h : Counts cap s) (hcap : cap < maxCap) (n : ℕ) :
    s.marks.push cap n =
      if recordBytes s.accepted - recordBytes s.dropped + n + headerSize ≥ cap then .ok (s.marks, false)
      else if s.accepted.length + 1 < 2 ^ 16 then
        .ok (Markers.counting (recordBytes (s.accepted ++ [n])) (s.accepted ++ [n]).length (s.accepted ++ [n]).length
          (recordBytes s.dropped) s.popped.length s.dropped.length, true)
      else .error .hang := by
  have hp := h.popped.length_le
  have hd := h.dropped_accepted.length_le
  have hfew := h.few
  rw [h.marks, Markers.push_counting (h.accepted_bytes hcap) h.few (recordBytes_mono h.dropped_accepted) (by omega) (by omega)]
  simp

/-- A push that returns keeps the counts. -/
theorem Counts.step_push (h : Counts cap s) (hcap : cap < maxCap) {n : ℕ} (hs : s.step cap (.push n) = .ok s') : Counts cap s' := by
  simp only [CountedClient.step, h.push hcap n] at hs
  by_cases hfull : recordBytes s.accepted - recordBytes s.dropped + n + headerSize ≥ cap
  · rw [if_pos hfull] at hs
    cases hs
    exact h
  · rw [if_neg hfull] at hs
    by_cases hcarry : s.accepted.length + 1 < 2 ^ 16
    · rw [if_pos hcarry] at hs
      cases hs
      refine ⟨rfl, by simpa using hcarry, ?_, h.popped.trans (List.prefix_append _ _), h.dropped, h.guards⟩
      intro k hk
      rcases List.mem_append.mp hk with hk | hk
      · exact h.small k hk
      · rw [List.mem_singleton.mp hk]
        omega
    · rw [if_neg hcarry] at hs
      cases hs

/-- A pop keeps the counts, if no guard is held. -/
theorem Counts.step_popFront (h : Counts cap s) (hcap : cap < maxCap) (hg : s.guards = []) (hs : s.step cap .popFront = .ok s') :
    Counts cap s' := by
  have hpd : s.popped = s.dropped := by rw [h.dropped, hg, List.append_nil]
  have hbytes := h.accepted_bytes hcap
  have hfew := h.few
  have hple := h.popped.length_le
  have hpbytes := recordBytes_mono h.popped
  obtain ⟨rest, hrest⟩ := h.popped
  cases rest with
  | cons n rest =>
    have hread : s.accepted[s.popped.length]? = some n := by simp [← hrest]
    have hlt : s.popped.length < s.accepted.length := (List.getElem?_eq_some_iff.mp hread).1
    have hpop : s.marks.popFront = .ok (Markers.counting (recordBytes s.accepted) s.accepted.length s.accepted.length
        (recordBytes s.dropped) (s.popped.length + 1) s.dropped.length,
        some ⟨Marker.word (recordBytes s.popped) s.popped.length s.popped.length⟩) := by
      rw [h.marks, ← hpd]
      exact Markers.popFront_counting hlt h.few (by omega) h.few (by omega)
    simp only [CountedClient.step, hpop, hread, ok_bind] at hs
    cases hs
    exact ⟨by simp, h.few, h.small, ⟨rest, by simp [← hrest]⟩, by simp [h.dropped], by simp [hg]⟩
  | nil =>
    have hlen : s.accepted.length ≤ s.popped.length := by simp [← hrest]
    have hpop : s.marks.popFront = .ok (s.marks, none) := by
      refine Markers.popFront_empty (f := s.accepted.length) ?_ ?_ hlen
      · rw [h.marks, Markers.counting_marker, Marker.finishedLen_word (by omega) h.few h.few]
      · rw [h.marks, ← hpd, Markers.counting_removeMarker, Marker.len_word (by omega) (by omega) (by omega)]
    simp only [CountedClient.step, hpop, ok_bind] at hs
    cases hs
    exact h

/-- The drop of a guard keeps the counts. -/
theorem Counts.step_drop (h : Counts cap s) (hcap : cap < maxCap) {i : ℕ} (hs : s.step cap (.drop i) = .ok s') : Counts cap s' := by
  cases hi : s.guards[i]? with
  | none =>
    simp only [CountedClient.step, hi] at hs
    cases hs
    exact h
  | some n =>
    have hmem : n ∈ s.accepted := h.popped.subset (by rw [h.dropped]; exact List.mem_append_right _ (List.mem_of_getElem? hi))
    have hsmall := h.small n hmem
    have hbytes := h.accepted_bytes hcap
    -- the guard that is dropped is the only one
    obtain ⟨hguards, rfl⟩ : s.guards = [n] ∧ i = 0 := by
      have hlen := h.guards
      match hg : s.guards, i, hi with
      | [g], 0, hi => exact ⟨by simpa using hi, rfl⟩
      | [g], i + 1, hi => simp at hi
      | [], i, hi => simp at hi
      | _ :: _ :: _, _, _ => simp [hg] at hlen
    simp only [CountedClient.step, hi] at hs
    cases hs
    refine ⟨?_, h.few, h.small, h.popped, ?_, ?_⟩
    · rw [h.marks, Markers.dropGuard_counting (by omega)]
      simp [Nat.add_comm n]
    · simp [h.dropped, hguards]
    · simp [hguards]

/-- A step of the machine keeps the counts. -/
theorem Counts.step (h : Counts cap s) (hcap : cap < maxCap) {op : RingOp ℕ} (hop : s.DropsFirst op)
    (hs : s.step cap op = .ok s') : Counts cap s' := by
  cases op with
  | push n => exact h.step_push hcap hs
  | popFront => exact h.step_popFront hcap (hop rfl) hs
  | drop i => exact h.step_drop hcap hs

/-- A run of the machine counts. -/
theorem counts_of_run {ops : List (RingOp ℕ)} (hcap : cap < maxCap) (hops : Runs.Along (step cap) DropsFirst start ops)
    (h : Runs.exec (step cap) start ops = .ok s) : Counts cap s :=
  Runs.invariant (Counts cap) (fun _ _ _ hI hop hs => hI.step hcap hop hs) (start_counts cap) hops h

end

end CountedClient

end MiriWeirdness
