import MiriWeirdness.Lemmas.PushersRun
import MiriWeirdness.Lemmas.RingQueue

/-!
# What concurrent pushes leave in the byte ring

Taking back a reservation lowers the counters below reservations that others have made since. Calls then share tickets and places, but
one whose ticket has become too high never sees its turn, so what is published stays a queue.
-/

namespace MiriWeirdness.Pushers

open Buffer (Bytes slice)

variable {ι : Type} [DecidableEq ι] {cap : ℕ} {mem : Bytes} {r : BBRing}

/-! ## A call that runs alone -/

/-- The steps of a call that runs alone are `BBRing::push`. -/
theorem exec_alone {data : ι → List UInt8} {ring r' : BBRing} {stage : ι → Stage} {marker : ι → Marker 64} {pubs : List ι} {i : ι}
    {b : Bool} (hi : stage i = .idle) (h : ring.push (data i) = .ok (r', b)) :
    ∃ s', Runs.exec (Runs.logged (step data)) (⟨ring, stage, marker⟩, pubs) (List.replicate 6 i) = .ok s' ∧ s'.1.ring = r' ∧
      s'.1.stage i = if b then .published else .rolledBack := by
  obtain ⟨r₁, hr₁⟩ : ∃ r₁ : BBRing, r₁ = { ring with toMarkers := (ring.reserve (data i).length).2 } := ⟨_, rfl⟩
  obtain ⟨mk, hmk⟩ : ∃ mk, mk = Function.update marker i ⟨ring.marker⟩ := ⟨_, rfl⟩
  have hself : mk i = ⟨ring.marker⟩ := by rw [hmk, Function.update_self]
  have hreserve : Runs.logged (step data) (⟨ring, stage, marker⟩, pubs) i = .ok (⟨r₁, Function.update stage i .reserved, mk⟩, pubs) := by
    refine logged_of_quiet ?_
    simp only [step, hi, hr₁, hmk]
    rfl
  have hpush : ring.push (data i) = (do
      if ← r₁.full r₁.cap (mk i) (data i).length then .ok ({ r₁ with toMarkers := r₁.rollback (data i).length }, false)
      else
        let r ← r₁.writeHeader (mk i) (data i)
        let r ← r.writePayload (mk i) (data i)
        if r.isTurn (mk i) then .ok ({ r with toMarkers := r.publish }, true) else .error .hang) := by
    rw [hr₁, hself]
    rfl
  rw [hpush] at h
  cases hfull : r₁.full r₁.cap (mk i) (data i).length with
  | error e => simp [hfull] at h
  | ok full =>
    rw [hfull, ok_bind] at h
    have hcheck : Runs.logged (step data) (⟨r₁, Function.update stage i .reserved, mk⟩, pubs) i =
        .ok (⟨r₁, Function.update stage i (if full then .rejected else .accepted), mk⟩, pubs) := by
      refine logged_of_quiet ?_
      simp only [step, Function.update_self, hfull, ok_bind, Function.update_idem]
    cases full with
    | true =>
      obtain ⟨hr', rfl⟩ : { r₁ with toMarkers := r₁.rollback (data i).length } = r' ∧ false = b := by simpa using h
      refine ⟨(⟨r', Function.update stage i .rolledBack, mk⟩, pubs), ?_, rfl, by simp⟩
      exact (Runs.exec_cons_ok hreserve).trans ((Runs.exec_cons_ok hcheck).trans (exec_rejected hr'))
    | false =>
      cases hheader : r₁.writeHeader (mk i) (data i) with
      | error e => simp [hheader] at h
      | ok r₂ =>
        cases hpayload : r₂.writePayload (mk i) (data i) with
        | error e => simp [hheader, hpayload] at h
        | ok r₃ =>
          by_cases hturn : r₃.isTurn (mk i) = true
          · obtain ⟨hr', rfl⟩ : { r₃ with toMarkers := r₃.publish } = r' ∧ true = b := by simpa [hheader, hpayload, hturn] using h
            refine ⟨(⟨r', Function.update stage i .published, mk⟩, pubs ++ [i]), ?_, rfl, by simp⟩
            exact (Runs.exec_cons_ok hreserve).trans ((Runs.exec_cons_ok hcheck).trans (exec_accepted hheader hpayload hturn hr'))
          · simp [hheader, hpayload, hturn] at h

/-! ## What is published -/

/-- In every state that a schedule can reach without overflowing a counter, with `f` calls published: `finished_len` is `f`, the buffer
holds their records back to back from its start, in the order of their publication, no later step changes these, and popping `f` times
gives their payloads in that order. No step of such a schedule fails. -/
theorem published_records_popped (hr : BBRing.new cap (some mem) = .ok r) (data : ι → List UInt8) (is : List ι)
    (his : Runs.Along (Runs.logged (step data)) (NoOverflow data) (start r, []) is) :
    ∃ s, Runs.exec (Runs.logged (step data)) (start r, []) is = .ok s ∧
      (Marker.mk s.1.ring.marker).finishedLen.toNat = s.2.length ∧
      s.2.Nodup ∧ (∀ i, i ∈ s.2 ↔ s.1.stage i = .published) ∧
      slice s.1.ring.buf 0 (recordsSize (s.2.map data)) = records (s.2.map data) ∧
      (∀ js s', Runs.Along (Runs.logged (step data)) (NoOverflow data) s js → Runs.exec (Runs.logged (step data)) s js = .ok s' →
        slice s'.1.ring.buf 0 (recordsSize (s.2.map data)) = slice s.1.ring.buf 0 (recordsSize (s.2.map data))) ∧
      ∃ c, Runs.exec (Runs.logged Client.step) (Client.start s.1.ring) (Client.drain s.2.length) = .ok c ∧
        c.2 = (s.2.map data).flatMap fun d => [.popped d, .other] := by
  obtain ⟨s, hs, live, hq⟩ := (start_queued hr).exec his
  refine ⟨s, hs, hq.finishedLen, (List.nodup_append.mp hq.nodup).1, hq.published, hq.stored, ?_, ?_⟩
  · intro js s' hjs hs'
    obtain ⟨t, ht, live', hq'⟩ := hq.exec hjs
    obtain rfl : s' = t := Except.ok.inj (hs'.symm.trans ht)
    obtain ⟨more, hmore⟩ := published_prefix hs'
    have hstored' := hq'.stored
    rw [← hmore, List.map_append] at hstored'
    exact (stored_append_iff.mp hstored').1.trans hq.stored.symm
  · have hroom : recordsSize (s.2.map data) ≤ s.1.ring.cap := by
      rw [recordsSize_map]
      exact hq.room
    have hcap : s.1.ring.cap < 2 ^ 32 := by
      have := hq.small
      unfold maxCap at this
      omega
    have hlen : s.2.length < 2 ^ 16 := by
      have := hq.few
      rw [List.length_append] at this
      omega
    obtain ⟨r', hr'⟩ := @Client.exec_drain s.1.ring _ _ _ [] (s.2.map data) [] hq.marks hq.bytes hq.few hlen (by simp) hq.stored hroom hcap
    rw [List.length_map] at hr'
    exact ⟨_, hr', rfl⟩

/-- The data of four calls: the second cannot fit into 20 bytes. -/
def secondTooLong : Fin 4 → List UInt8
  | 0 => [9]
  | 1 => List.replicate 20 1
  | 2 => []
  | 3 => [7]

/-- A schedule in which two calls share a ticket, after one that was published. -/
theorem published_records_popped_run :
    ∃ s, Runs.exec (Runs.logged (step secondTooLong)) (start { marker := 0, removeMarker := 0, buf := fun _ => 0, cap := 20 }, [])
        [0, 0, 0, 0, 0, 0, 1, 1, 2, 1, 3, 2, 2, 3, 3, 3, 3] = .ok s ∧
      ∃ c, Runs.exec (Runs.logged Client.step) (Client.start s.1.ring) (Client.drain 1) = .ok c ∧ c.2 = [.popped [9], .other] := by
  obtain ⟨s, hs, -, -, -, -, -, c, hc, hlog⟩ := @published_records_popped (Fin 4) _ 20 (fun _ => 0) _ rfl secondTooLong
    [0, 0, 0, 0, 0, 0, 1, 1, 2, 1, 3, 2, 2, 3, 3, 3, 3] (by decide)
  have hpubs : Except.map Prod.snd (Runs.exec (Runs.logged (step secondTooLong))
      (start { marker := 0, removeMarker := 0, buf := fun _ => 0, cap := 20 }, [])
        [0, 0, 0, 0, 0, 0, 1, 1, 2, 1, 3, 2, 2, 3, 3, 3, 3]) = .ok [0] := rfl
  have hs' := congrArg (Except.map Prod.snd) hs
  have hpubs : s.2 = [0] := Except.ok.inj (hs'.symm.trans hpubs)
  rw [hpubs] at hc hlog
  exact ⟨s, hs, c, hc, hlog⟩

/-! ## Tickets and places -/

/-- In every state that a schedule reaches whose reservations overflow nothing and find no outstanding call with a ticket as high as the
next one, the records of the calls that passed the capacity check are disjoint and the tickets of the outstanding calls are distinct. -/
theorem accepted_apart (hr : BBRing.new cap (some mem) = .ok r) (data : ι → List UInt8) (is : List ι)
    (his : Runs.Along (Runs.logged (step data)) (Settled data) (start r, []) is) :
    ∃ s, Runs.exec (Runs.logged (step data)) (start r, []) is = .ok s ∧
      (∀ i j, i ≠ j → (s.1.stage i).admitted = true → (s.1.stage j).admitted = true →
        (s.1.marker i).head.toNat + (headerSize + (data i).length) ≤ (s.1.marker j).head.toNat ∨
          (s.1.marker j).head.toNat + (headerSize + (data j).length) ≤ (s.1.marker i).head.toNat) ∧
      ∀ i j, i ≠ j → (s.1.stage i).outstanding = true → (s.1.stage j).outstanding = true → (s.1.marker i).len ≠ (s.1.marker j).len := by
  obtain ⟨s, hs, live, hq, hapart⟩ := exec_apart hr his
  refine ⟨s, hs, ?_, ?_⟩
  · intro i j hij hi hj
    rcases hapart.before_or_before (hq.mem_of_admitted hi) (hq.mem_of_admitted hj) hij with h | h
    · exact Or.inl h.2
    · exact Or.inr h.2
  · intro i j hij hi hj heq
    have hlive : ∀ k, (s.1.stage k).outstanding = true → k ∈ s.2 ++ live := fun k hk =>
      List.mem_append_right _ ((hq.outstanding k).mpr hk)
    have heq := congrArg BitVec.toNat heq
    rcases hapart.before_or_before (hlive i hi) (hlive j hj) hij with h | h
    · exact Nat.ne_of_lt h.1 heq
    · exact Nat.ne_of_gt h.1 heq

/-- The data of four calls: the first cannot fit into 12 bytes. -/
def firstTooLong : Fin 4 → List UInt8
  | 0 => List.replicate 12 1
  | 1 | 2 | 3 => []

/-- The first call takes its reservation back while nobody has reserved above it. -/
theorem accepted_apart_run :
    ∃ s, Runs.exec (Runs.logged (step firstTooLong)) (start { marker := 0, removeMarker := 0, buf := fun _ => 0, cap := 12 }, [])
        [1, 1, 0, 0, 0, 2, 2, 2, 1, 1, 1] = .ok s ∧
      (∀ i j, i ≠ j → (s.1.stage i).admitted = true → (s.1.stage j).admitted = true →
        (s.1.marker i).head.toNat + (headerSize + (firstTooLong i).length) ≤ (s.1.marker j).head.toNat ∨
          (s.1.marker j).head.toNat + (headerSize + (firstTooLong j).length) ≤ (s.1.marker i).head.toNat) ∧
      ∀ i j, i ≠ j → (s.1.stage i).outstanding = true → (s.1.stage j).outstanding = true → (s.1.marker i).len ≠ (s.1.marker j).len :=
  @accepted_apart (Fin 4) _ 12 (fun _ => 0) _ rfl firstTooLong _ (by decide)

/-- The first call is rejected and takes its reservation back after the second has reserved above it; the third then gets the ticket of
the second, and when that is rejected too, the fourth gets the ticket and the place of the third. Both are accepted. -/
theorem accepted_share_bytes :
    Runs.Along (Runs.logged (step firstTooLong)) (NoOverflow firstTooLong)
        (start { marker := 0, removeMarker := 0, buf := fun _ => 0, cap := 12 }, []) [0, 0, 1, 0, 2, 1, 1, 3, 2, 3] ∧
      ∃ s, Runs.exec (Runs.logged (step firstTooLong)) (start { marker := 0, removeMarker := 0, buf := fun _ => 0, cap := 12 }, [])
        [0, 0, 1, 0, 2, 1, 1, 3, 2, 3] = .ok s ∧
      s.1.stage 2 = .accepted ∧ s.1.stage 3 = .accepted ∧
      (s.1.marker 2).head.toNat = 4 ∧ (s.1.marker 3).head.toNat = 4 ∧ (s.1.marker 2).len = (s.1.marker 3).len :=
  ⟨by decide, _, rfl, by decide⟩

end MiriWeirdness.Pushers
