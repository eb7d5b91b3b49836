import MiriWeirdness.Lemmas.RingRecords
import MiriWeirdness.Library.Fifo

/-!
# The ring as a queue

What the operations of one thread do to a ring whose records lie back to back from the start of its buffer, as they do until the ring
goes round, and that the ring is then a queue.
-/

namespace MiriWeirdness

open Buffer (Bytes slice)

namespace BBRing

variable {r : BBRing} {data : List UInt8}

/-- The capacity check of a push of this payload, made now. -/
def isFull (r : BBRing) (data : List UInt8) : Except Fault Bool :=
  (r.reserve data.length).2.full r.cap ⟨r.marker⟩ data.length

/-- The check counts the bytes that are in use. -/
theorem isFull_eq (h : (Marker.mk r.removeMarker).head.toNat ≤ (Marker.mk r.marker).head.toNat) : r.isFull data =
    .ok (decide ((Marker.mk r.marker).head.toNat - (Marker.mk r.removeMarker).head.toNat + data.length + headerSize ≥ r.cap)) :=
  Markers.full_eq rfl rfl h

/-- A push that returns passed its check or was turned away by it. -/
theorem head_le_of_push {x : BBRing × Bool} (h : r.push data = .ok x) :
    (Marker.mk r.removeMarker).head.toNat ≤ (Marker.mk r.marker).head.toNat := by
  by_contra hlt
  have hfull : (r.reserve data.length).2.full r.cap ⟨r.marker⟩ data.length = .error .overflow := if_neg hlt
  simp only [Markers.reserve] at hfull
  simp [push, Markers.reserve, hfull] at h

/-- A push that is turned away leaves the ring as it was. -/
theorem push_of_full (h : r.isFull data = .ok true) : r.push data = .ok (r, false) := by
  have hback := Markers.rollback_reserve r.toMarkers data.length
  simp only [isFull, Markers.reserve] at h hback
  simp only [push, Markers.reserve, h, ok_bind, if_true, hback]

/-- A push that is not turned away writes its record where its marker says, if that is inside of the buffer. -/
theorem push_of_not_full (h : r.isFull data = .ok false) :
    ∃ r' : BBRing, r'.toMarkers = (r.reserve data.length).2.publish ∧ r'.cap = r.cap ∧
      r'.buf = Buffer.write (Buffer.write r.buf (Marker.mk r.marker).head.toNat (halfBytes data.length))
        ((Marker.mk r.marker).head.toNat + headerSize) data ∧
      r.push data =
        if (Marker.mk r.marker).head.toNat + headerSize + data.length ≤ r.cap then
          if (r.reserve data.length).2.isTurn ⟨r.marker⟩ then .ok (r', true) else .error .hang
        else .error .outOfBounds := by
  simp only [isFull, Markers.reserve] at h
  refine ⟨⟨(r.reserve data.length).2.publish, Buffer.write (Buffer.write r.buf (Marker.mk r.marker).head.toNat (halfBytes data.length))
    ((Marker.mk r.marker).head.toNat + headerSize) data, r.cap⟩, ?_, ?_, ?_, ?_⟩
  · exact Eq.refl (r.reserve data.length).2.publish
  · exact Eq.refl r.cap
  · exact Eq.refl _
  by_cases hfit : (Marker.mk r.marker).head.toNat + headerSize + data.length ≤ r.cap
  · have hhead : (Marker.mk r.marker).head.toNat + headerSize ≤ r.cap := by omega
    simp only [push, Markers.reserve, h, ok_bind, writeHeader, writePayload, write, halfBytes_length, hhead, hfit, if_true]
    rfl
  · simp only [push, Markers.reserve, h, ok_bind, writeHeader, writePayload, write, halfBytes_length, hfit, if_false]
    by_cases hhead : (Marker.mk r.marker).head.toNat + headerSize ≤ r.cap
    · simp [hhead, hfit]
    · simp [hhead]

/-- A pop of the first of the records that are not popped yet. -/
theorem popFront_of_stored {ds es : List (List UInt8)} {d : List UInt8} {f : ℕ}
    (hf : (Marker.mk r.marker).finishedLen.toNat = f) (hlt : ds.length < f) (hf' : f < 2 ^ 16)
    (hr : r.removeMarker = Marker.word (recordsSize ds) ds.length ds.length) (hs : Stored r.buf (ds ++ d :: es))
    (hroom : recordsSize (ds ++ d :: es) ≤ r.cap) (hcap : r.cap < 2 ^ 32) :
    r.popFront = .ok ({ r with removeMarker := Marker.word (recordsSize ds) (ds.length + 1) ds.length },
        some { ptr := recordsSize ds + headerSize, len := d.length }) ∧
      r.read (recordsSize ds + headerSize) d.length = .ok d := by
  rw [recordsSize_append, recordsSize_cons] at hroom
  obtain ⟨hheader, hdata⟩ := hs.read
  have hhead : headerSize = 4 := rfl
  have hone : (Marker.new 0 1 0 : Marker 64).raw = Marker.word 0 1 0 :=
    Marker.raw_new (h := 0) (l := 1) (f := 0) (by decide) (by decide) (by decide)
  have hlen : ds.length < 2 ^ 16 := by omega
  have hsize : recordsSize ds < 2 ^ 32 := by omega
  have hmod : recordsSize ds % r.cap = recordsSize ds := Nat.mod_eq_of_lt (by omega)
  have hpop := Markers.popFront_some (r := r.toMarkers) hf (by rw [hr, Marker.len_word hsize hlen hlen])
    (by rw [hr, Marker.finishedLen_word hsize hlen hlen]) hlt
  rw [hone, hr, Marker.word_add] at hpop
  refine ⟨?_, ?_⟩
  · have hread : r.read (recordsSize ds) headerSize = .ok (halfBytes d.length) := by
      rw [read, if_pos (by omega), hheader]
    simp only [popFront, hpop, ok_bind, Marker.head_word hsize hlen hlen, hmod, hread, Nat.add_zero]
    rw [if_neg (by omega), halfOfBytes_halfBytes (by omega)]
  · rw [read, if_pos (by omega), hdata]

end BBRing

/-! ## The run of a thread -/

namespace Client

/-- A thread that has just created a ring. -/
def start (r : BBRing) : Client × List (Fifo.Event (List UInt8)) := ({ ring := r, guards := [] }, [])

/-- A state with the events that led to it: the payloads accepted so far are those dropped, those held, one at most, and those still
in the queue, and their records lie back to back in the buffer. -/
structure Queues (s : Client × List (Fifo.Event (List UInt8))) (dropped held pending : List (List UInt8)) : Prop where
  replay : Fifo.replay [] s.2 = some pending
  marks : s.1.ring.toMarkers =
    Markers.counting (recordsSize (dropped ++ held ++ pending)) (dropped ++ held ++ pending).length
      (dropped ++ held ++ pending).length (recordsSize dropped) (dropped ++ held).length dropped.length
  stored : Stored s.1.ring.buf (dropped ++ held ++ pending)
  room : recordsSize (dropped ++ held ++ pending) ≤ s.1.ring.cap
  cap : s.1.ring.cap < maxCap
  guards : held = [] ∧ s.1.guards = [] ∨
    ∃ d, held = [d] ∧ s.1.guards = [{ ptr := recordsSize dropped + headerSize, len := d.length }]

/-- The operation is not a pop while a guard is held. -/
def DropsFirst (s : Client × List (Fifo.Event (List UInt8))) (op : RingOp (List UInt8)) : Prop := op = .popFront → s.1.guards = []

instance (s : Client × List (Fifo.Event (List UInt8))) (op : RingOp (List UInt8)) : Decidable (DropsFirst s op) :=
  inferInstanceAs (Decidable (op = .popFront → s.1.guards = []))

/-- A push for which the capacity check finds room ends inside of the buffer: the bytes accepted before and its own are not more than
the capacity. -/
def Fits (s : Client × List (Fifo.Event (List UInt8))) : RingOp (List UInt8) → Prop
  | .push data =>
    (Marker.mk s.1.ring.marker).head.toNat - (Marker.mk s.1.ring.removeMarker).head.toNat + data.length + headerSize < s.1.ring.cap →
      (Marker.mk s.1.ring.marker).head.toNat + headerSize + data.length ≤ s.1.ring.cap
  | _ => True

instance (s : Client × List (Fifo.Event (List UInt8))) : (op : RingOp (List UInt8)) → Decidable (Fits s op)
  | .push data => inferInstanceAs (Decidable
    ((Marker.mk s.1.ring.marker).head.toNat - (Marker.mk s.1.ring.removeMarker).head.toNat + data.length + headerSize < s.1.ring.cap →
      (Marker.mk s.1.ring.marker).head.toNat + headerSize + data.length ≤ s.1.ring.cap))
  | .popFront => isTrue trivial
  | .drop _ => isTrue trivial

section

variable {s s' : Client × List (Fifo.Event (List UInt8))} {dropped held pending : List (List UInt8)}

/-- A step that can be taken stays inside of the buffer. -/
theorem fits_of_step {op : RingOp (List UInt8)} (h : Runs.logged step s op = .ok s') : Fits s op := by
  cases op with
  | push data =>
    intro hroom
    obtain ⟨x, hx, -⟩ := Runs.logged_eq_ok.mp h
    by_contra hfit
    cases hpush : s.1.ring.push data with
    | error e => simp [step, hpush] at hx
    | ok y =>
      have hfull := @BBRing.isFull_eq _ data (BBRing.head_le_of_push hpush)
      rw [decide_eq_false (by omega)] at hfull
      obtain ⟨r', -, -, -, hpush'⟩ := BBRing.push_of_not_full hfull
      rw [if_neg hfit, hpush] at hpush'
      cases hpush'
  | popFront => trivial
  | drop i => trivial

/-- What was dropped is a part of what was popped, and that of what was accepted. -/
theorem dropped_le (dropped held pending : List (List UInt8)) : recordsSize dropped ≤ recordsSize (dropped ++ held ++ pending) ∧
    dropped.length ≤ (dropped ++ held).length ∧ (dropped ++ held).length ≤ (dropped ++ held ++ pending).length := by
  refine ⟨?_, by simp, by simp⟩
  rw [List.append_assoc, recordsSize_append]
  exact Nat.le_add_right _ _

section

variable (h : Queues s dropped held pending)

include h

/-- Fewer than 2^14 records fit into a buffer. -/
theorem Queues.few : (dropped ++ held ++ pending).length < 2 ^ 14 := by
  have hle := length_le_recordsSize (dropped ++ held ++ pending)
  have hroom := h.room
  have hcap := h.cap
  simp only [headerSize, maxCap] at hle hcap
  omega

theorem Queues.bytes : recordsSize (dropped ++ held ++ pending) + s.1.ring.cap < 2 ^ 17 := by
  have hroom := h.room
  have hcap := h.cap
  unfold maxCap at hcap
  omega

theorem Queues.head : (Marker.mk s.1.ring.marker).head.toNat = recordsSize (dropped ++ held ++ pending) := by
  have hfew := h.few
  have hbytes := h.bytes
  rw [h.marks, Markers.counting_marker, Marker.head_word (by omega) (by omega) (by omega)]

theorem Queues.finishedLen : (Marker.mk s.1.ring.marker).finishedLen.toNat = (dropped ++ held ++ pending).length := by
  have hfew := h.few
  have hbytes := h.bytes
  rw [h.marks, Markers.counting_marker, Marker.finishedLen_word (by omega) (by omega) (by omega)]

theorem Queues.remHead : (Marker.mk s.1.ring.removeMarker).head.toNat = recordsSize dropped := by
  have hfew := h.few
  have hbytes := h.bytes
  obtain ⟨hsize, hdropped, hpopped⟩ := dropped_le dropped held pending
  rw [h.marks, Markers.counting_removeMarker, Marker.head_word (by omega) (by omega) (by omega)]

theorem Queues.remLen : (Marker.mk s.1.ring.removeMarker).len.toNat = (dropped ++ held).length := by
  have hfew := h.few
  have hbytes := h.bytes
  obtain ⟨hsize, hdropped, hpopped⟩ := dropped_le dropped held pending
  rw [h.marks, Markers.counting_removeMarker, Marker.len_word (by omega) (by omega) (by omega)]

theorem Queues.remFinishedLen : (Marker.mk s.1.ring.removeMarker).finishedLen.toNat = dropped.length := by
  have hfew := h.few
  have hbytes := h.bytes
  obtain ⟨hsize, hdropped, hpopped⟩ := dropped_le dropped held pending
  rw [h.marks, Markers.counting_removeMarker, Marker.finishedLen_word (by omega) (by omega) (by omega)]

/-- A push that finds room does not have to wait. -/
theorem Queues.isTurn {n : ℕ} (hn : n < 2 ^ 17) : (s.1.ring.reserve n).2.isTurn ⟨s.1.ring.marker⟩ = true := by
  have hfew := h.few
  have hbytes := h.bytes
  rw [h.marks, Markers.counting_marker]
  exact (Markers.isTurn_reserve (by unfold headerSize; omega) (by omega)).mpr (by omega)

end

/-- A push keeps the queue: it is turned away, or its payload is the last. -/
theorem Queues.push (h : Queues s dropped held pending) (data : List UInt8) (hfit : Fits s (.push data)) :
    ∃ s' pending', Runs.logged step s (.push data) = .ok s' ∧ Queues s' dropped held pending' := by
  have hbytes := h.bytes
  have hhead := h.head
  have hremHead := h.remHead
  have hfull := @BBRing.isFull_eq s.1.ring data (by rw [hhead, hremHead]; exact (dropped_le dropped held pending).1)
  rw [hhead, hremHead] at hfull
  by_cases hc : recordsSize (dropped ++ held ++ pending) - recordsSize dropped + data.length + headerSize ≥ s.1.ring.cap
  · rw [decide_eq_true hc] at hfull
    refine ⟨(s.1, s.2 ++ [.rejected data]), pending, ?_, ?_⟩
    · simp [Runs.logged, step, BBRing.push_of_full hfull, Except.map]
    · exact { h with replay := by rw [Fifo.replay_append_singleton h.replay]; rfl }
  · rw [decide_eq_false hc] at hfull
    have hin := hfit (by rw [hhead, hremHead]; omega)
    rw [hhead] at hin
    obtain ⟨r', hms, hrcap, hbuf, hpush⟩ := BBRing.push_of_not_full hfull
    rw [hhead] at hpush hbuf
    rw [if_pos hin, if_pos (h.isTurn (by omega))] at hpush
    have hmarks : r'.toMarkers =
        Markers.counting (recordsSize (dropped ++ held ++ (pending ++ [data]))) (dropped ++ held ++ (pending ++ [data])).length
          (dropped ++ held ++ (pending ++ [data])).length (recordsSize dropped) (dropped ++ held).length dropped.length := by
      have hsize : recordsSize (dropped ++ held ++ (pending ++ [data])) =
          recordsSize (dropped ++ held ++ pending) + (headerSize + data.length) := by
        rw [← List.append_assoc, recordsSize_append, recordsSize_cons, recordsSize_nil, Nat.add_zero]
      have hlength : (dropped ++ held ++ (pending ++ [data])).length = (dropped ++ held ++ pending).length + 1 := by
        rw [← List.append_assoc, List.length_append, List.length_singleton]
      rw [hms, h.marks, Markers.reserve_counting (by omega), Markers.publish_counting, hsize, hlength]
    refine ⟨({ s.1 with ring := r' }, s.2 ++ [.accepted data]), pending ++ [data], ?_, ?_, hmarks, ?_, ?_, ?_, h.guards⟩
    · simp only [Runs.logged, step, hpush, ok_bind, Except.map, if_true]
    · rw [Fifo.replay_append_singleton h.replay]
      rfl
    · rw [← List.append_assoc, hbuf]
      exact h.stored.write data
    · rw [← List.append_assoc, recordsSize_append, hrcap]
      simp only [recordsSize_cons, recordsSize_nil]
      omega
    · rw [hrcap]
      exact h.cap

/-- A pop while no guard is held keeps the queue: there is nothing to pop, or the first payload is popped. -/
theorem Queues.popFront (h : Queues s dropped held pending) (hg : s.1.guards = []) :
    ∃ s' held' pending', Runs.logged step s .popFront = .ok s' ∧ Queues s' dropped held' pending' := by
  obtain rfl : held = [] := by
    rcases h.guards with ⟨hh, -⟩ | ⟨d, -, hd⟩
    · exact hh
    · rw [hg] at hd
      cases hd
  have hfew := h.few
  have hbytes := h.bytes
  have hfin := h.finishedLen
  have hremLen := h.remLen
  have hmarks := h.marks
  have hstored := h.stored
  have hroom := h.room
  simp only [List.append_nil] at hmarks hstored hfew hroom hbytes hfin hremLen
  cases pending with
  | nil =>
    rw [List.append_nil] at hfin
    have hpop : s.1.ring.toMarkers.popFront = .ok (s.1.ring.toMarkers, none) := Markers.popFront_empty hfin hremLen (Nat.le_refl _)
    refine ⟨(s.1, s.2 ++ [.empty]), [], [], ?_, ?_⟩
    · simp [Runs.logged, step, BBRing.popFront, hpop, Except.map]
    · exact { h with replay := by rw [Fifo.replay_append_singleton h.replay]; rfl }
  | cons d pending =>
    have hrem : s.1.ring.removeMarker = Marker.word (recordsSize dropped) dropped.length dropped.length := by
      rw [hmarks, Markers.counting_removeMarker]
    obtain ⟨hpop, hread⟩ := BBRing.popFront_of_stored hfin (by simp) (by omega) hrem hstored hroom (by omega)
    obtain ⟨r', hr'⟩ : ∃ r' : BBRing, r' = { s.1.ring with
      removeMarker := Marker.word (recordsSize dropped) (dropped.length + 1) dropped.length } := ⟨_, rfl⟩
    have hread' : r'.read (recordsSize dropped + headerSize) d.length = .ok d := by
      rw [hr']
      exact hread
    rw [← hr'] at hpop
    refine ⟨({ ring := r', guards := s.1.guards ++ [{ ptr := recordsSize dropped + headerSize, len := d.length }] }, s.2 ++ [.popped d]),
      [d], pending, ?_, ?_, ?_, ?_, ?_, ?_, Or.inr ⟨d, rfl, ?_⟩⟩
    · simp only [Runs.logged, step, hpop, ok_bind, BBRing.asRef, hread', Except.map]
    · rw [Fifo.replay_append_singleton h.replay, Fifo.next, if_pos rfl]
    · simp only [hr', h.marks, Markers.counting, List.append_nil]
      simp
    · rw [hr']
      simpa using hstored
    · rw [hr']
      simpa using hroom
    · rw [hr']
      exact h.cap
    · rw [hg, List.nil_append]

/-- A pop when the queue is empty finds nothing, whether a guard is held or not. -/
theorem Queues.popFront_nil (h : Queues s dropped held []) : s.1.ring.popFront = .ok (s.1.ring, none) := by
  have hle : (dropped ++ held ++ []).length ≤ (dropped ++ held).length := by simp
  have hpop : s.1.ring.toMarkers.popFront = .ok (s.1.ring.toMarkers, none) := Markers.popFront_empty h.finishedLen h.remLen hle
  simp [BBRing.popFront, hpop]

/-- A pop while a guard is held and the queue is not empty waits for that guard. -/
theorem Queues.popFront_held {d p : List UInt8} (h : Queues s dropped [d] (p :: pending)) : s.1.ring.popFront = .error .hang := by
  have hfew := h.few
  have hbytes := h.bytes
  obtain ⟨hsize, -, -⟩ := dropped_le dropped [d] (p :: pending)
  have hpop : s.1.ring.toMarkers.popFront = .error .hang := by
    rw [h.marks]
    exact Markers.popFront_unfinished (by simp) (by omega) (by omega) (by omega) (by omega) (by simp)
  simp [BBRing.popFront, hpop]

/-- A drop keeps the queue: there is at most one guard to drop. -/
theorem Queues.drop (h : Queues s dropped held pending) (i : ℕ) :
    ∃ s' dropped' held', Runs.logged step s (.drop i) = .ok s' ∧ Queues s' dropped' held' pending := by
  rcases h.guards with ⟨rfl, hguards⟩ | ⟨d, rfl, hguards⟩
  · refine ⟨(s.1, s.2 ++ []), dropped, [], ?_, ?_⟩
    · simp only [Runs.logged, step, hguards, List.getElem?_nil, Except.map]
    · rw [List.append_nil]
      exact h
  · cases i with
    | succ i =>
      refine ⟨(s.1, s.2 ++ []), dropped, [d], ?_, ?_⟩
      · simp only [Runs.logged, step, hguards, List.getElem?_cons_succ, List.getElem?_nil, Except.map]
      · rw [List.append_nil]
        exact h
    | zero =>
      have hfit : d.length + headerSize < 2 ^ 32 := by
        have hroom := h.room
        have hcap := h.cap
        unfold maxCap at hcap
        rw [recordsSize_append, recordsSize_append, recordsSize_cons] at hroom
        omega
      have hmarks : s.1.ring.toMarkers.dropGuard d.length = Markers.counting (recordsSize (dropped ++ [d] ++ [] ++ pending))
          (dropped ++ [d] ++ [] ++ pending).length (dropped ++ [d] ++ [] ++ pending).length (recordsSize (dropped ++ [d]))
          (dropped ++ [d] ++ []).length (dropped ++ [d]).length := by
        rw [h.marks, Markers.dropGuard_counting hfit]
        simp [Nat.add_comm headerSize]
      refine ⟨({ ring := s.1.ring.dropGuard { ptr := recordsSize dropped + headerSize, len := d.length }, guards := [] }, s.2 ++ [.other]),
        dropped ++ [d], [], ?_, ?_, hmarks, ?_, ?_, ?_, Or.inl ⟨rfl, rfl⟩⟩
      · simp only [Runs.logged, step, hguards, List.getElem?_cons_zero, Except.map, List.eraseIdx_zero, List.tail_cons]
      · rw [Fifo.replay_append_singleton h.replay]
        rfl
      · rw [List.append_nil]
        exact h.stored
      · rw [List.append_nil]
        exact h.room
      · exact h.cap

/-- A fresh ring is an empty queue. -/
theorem queues_start {cap : ℕ} {mem : Bytes} {r : BBRing} (h : BBRing.new cap (some mem) = .ok r) :
    Queues (start r) [] [] [] := by
  unfold BBRing.new at h
  by_cases hcap : cap ≥ (2 ^ 16 - 1) / 2 - 1
  · rw [if_pos hcap] at h
    cases h
  · rw [if_neg hcap] at h
    cases h
    refine ⟨rfl, ?_, stored_nil mem, Nat.zero_le cap, Nat.lt_of_not_le hcap, Or.inl ⟨rfl, rfl⟩⟩
    simp [start, Markers.counting, Marker.word, Packed.pack]

/-- Every operation of a run can be taken and keeps the queue, if every push that finds room ends inside of the buffer. -/
theorem Queues.step (h : Queues s dropped held pending) {op : RingOp (List UInt8)} (hdrops : DropsFirst s op) (hfit : Fits s op) :
    ∃ s', Runs.logged step s op = .ok s' ∧ ∃ dropped held pending, Queues s' dropped held pending := by
  cases op with
  | push data =>
    obtain ⟨s', pending', hs, hq⟩ := h.push data hfit
    exact ⟨s', hs, _, _, _, hq⟩
  | popFront =>
    obtain ⟨s', held', pending', hs, hq⟩ := h.popFront (hdrops rfl)
    exact ⟨s', hs, _, _, _, hq⟩
  | drop i =>
    obtain ⟨s', dropped', held', hs, hq⟩ := h.drop i
    exact ⟨s', hs, _, _, _, hq⟩

/-- Every operation that returns keeps the queue, also a pop while a guard is held. -/
theorem Queues.step_ok (h : Queues s dropped held pending) {op : RingOp (List UInt8)} (hs : Runs.logged Client.step s op = .ok s') :
    ∃ dropped held pending, Queues s' dropped held pending := by
  by_cases hdrops : DropsFirst s op
  · obtain ⟨s'', hs'', hq⟩ := h.step hdrops (fits_of_step hs)
    obtain rfl : s'' = s' := Except.ok.inj (hs''.symm.trans hs)
    exact hq
  · obtain ⟨rfl, hg⟩ : op = .popFront ∧ s.1.guards ≠ [] := by
      simpa [DropsFirst] using hdrops
    obtain ⟨d, rfl, -⟩ : ∃ d, held = [d] ∧ s.1.guards = [{ ptr := recordsSize dropped + headerSize, len := d.length }] := by
      rcases h.guards with ⟨-, hnil⟩ | hd
      · exact absurd hnil hg
      · exact hd
    cases pending with
    | nil =>
      have hpop : Runs.logged Client.step s .popFront = .ok (s.1, s.2 ++ [.empty]) := by
        simp [Runs.logged, Client.step, h.popFront_nil, Except.map]
      obtain rfl : (s.1, s.2 ++ [.empty]) = s' := Except.ok.inj (hpop.symm.trans hs)
      exact ⟨dropped, [d], [], { h with replay := by rw [Fifo.replay_append_singleton h.replay]; rfl }⟩
    | cons p pending => simp [Runs.logged, Client.step, h.popFront_held, Except.map] at hs

/-- Every run that returns ends in a queue. -/
theorem queues_of_run {cap : ℕ} {mem : Bytes} {r : BBRing} (hr : BBRing.new cap (some mem) = .ok r) {ops : List (RingOp (List UInt8))}
    (h : Runs.exec (Runs.logged Client.step) (start r) ops = .ok s) : ∃ dropped held pending, Queues s dropped held pending :=
  Runs.invariant (P := fun _ _ => True) (fun s => ∃ dropped held pending, Queues s dropped held pending)
    (fun _ _ _ ⟨_, _, _, hq⟩ _ hs => hq.step_ok hs) ⟨[], [], [], queues_start hr⟩ (Runs.Along.of_forall fun _ _ => trivial) h

/-- A number of pops, each guard dropped before the next. -/
def drain : ℕ → List (RingOp (List UInt8))
  | 0 => []
  | n + 1 => .popFront :: .drop 0 :: drain n

/-- Records that are stored and finished are popped in their order, whatever else is reserved behind them. -/
theorem exec_drain {r : BBRing} {h l f : ℕ} {ds es : List (List UInt8)} {log : List (Fifo.Event (List UInt8))}
    (hm : r.toMarkers = Markers.counting h l f (recordsSize ds) ds.length ds.length) (hh : h < 2 ^ 32) (hl : l < 2 ^ 16) (hf : f < 2 ^ 16)
    (hlen : (ds ++ es).length ≤ f) (hs : Stored r.buf (ds ++ es)) (hroom : recordsSize (ds ++ es) ≤ r.cap) (hcap : r.cap < 2 ^ 32) :
    ∃ r', Runs.exec (Runs.logged step) ({ ring := r, guards := [] }, log) (drain es.length) =
      .ok ({ ring := r', guards := [] }, log ++ es.flatMap fun d => [.popped d, .other]) := by
  induction es generalizing r ds log with
  | nil => exact ⟨r, by simp [drain]⟩
  | cons d es ih =>
    have hrecord : d.length + headerSize < 2 ^ 32 := by
      rw [recordsSize_append, recordsSize_cons] at hroom
      omega
    have hmarker : r.marker = Marker.word h l f := by rw [hm, Markers.counting_marker]
    have hrem : r.removeMarker = Marker.word (recordsSize ds) ds.length ds.length := by rw [hm, Markers.counting_removeMarker]
    have hfin : (Marker.mk r.marker).finishedLen.toNat = f := by rw [hmarker, Marker.finishedLen_word hh hl hf]
    have hlt : ds.length < f := by
      rw [List.length_append, List.length_cons] at hlen
      omega
    obtain ⟨hpop, hread⟩ := BBRing.popFront_of_stored hfin hlt hf hrem hs hroom hcap
    have hsize : recordsSize (ds ++ [d]) = recordsSize ds + (d.length + headerSize) := by
      rw [recordsSize_append, recordsSize_cons, recordsSize_nil]
      omega
    have hlength : (ds ++ [d]).length = ds.length + 1 := by rw [List.length_append, List.length_singleton]
    obtain ⟨r', hr'⟩ : ∃ r' : BBRing, r' =
      ⟨Markers.counting h l f (recordsSize (ds ++ [d])) (ds ++ [d]).length (ds ++ [d]).length, r.buf, r.cap⟩ := ⟨_, rfl⟩
    have hround : Runs.exec (Runs.logged step) ({ ring := r, guards := [] }, log) (.popFront :: .drop 0 :: drain es.length) =
        Runs.exec (Runs.logged step) ({ ring := r', guards := [] }, log ++ [.popped d] ++ [.other]) (drain es.length) := by
      obtain ⟨r₁, hr₁⟩ : ∃ r₁ : BBRing, r₁ = ⟨Markers.counting h l f (recordsSize ds) (ds.length + 1) ds.length, r.buf, r.cap⟩ := ⟨_, rfl⟩
      have hread₁ : r₁.asRef { ptr := recordsSize ds + headerSize, len := d.length } = .ok d := by
        rw [hr₁]
        exact hread
      have hpop₁ : r.popFront = .ok (r₁, some { ptr := recordsSize ds + headerSize, len := d.length }) := by
        rw [hpop, hr₁, Markers.counting, hmarker]
      have hdrop₁ : r₁.dropGuard { ptr := recordsSize ds + headerSize, len := d.length } = r' := by
        rw [hr₁, hr', hsize, hlength, BBRing.dropGuard, Markers.dropGuard_counting hrecord]
      have hstep₁ : Runs.logged step ({ ring := r, guards := [] }, log) .popFront =
          .ok ({ ring := r₁, guards := [{ ptr := recordsSize ds + headerSize, len := d.length }] }, log ++ [.popped d]) := by
        simp only [Runs.logged, step, hpop₁, hread₁, ok_bind, List.nil_append, Except.map]
      have hstep₂ : Runs.logged step ({ ring := r₁, guards := [{ ptr := recordsSize ds + headerSize, len := d.length }] },
          log ++ [.popped d]) (.drop 0) = .ok ({ ring := r', guards := [] }, log ++ [.popped d] ++ [.other]) := by
        simp only [Runs.logged, step, List.getElem?_cons_zero, hdrop₁, List.eraseIdx_zero, List.tail_cons, Except.map]
      rw [Runs.exec_cons_ok hstep₁, Runs.exec_cons_ok hstep₂]
    have happend : ds ++ [d] ++ es = ds ++ d :: es := by simp
    obtain ⟨r'', hr''⟩ := @ih r' (ds ++ [d]) (log ++ [.popped d] ++ [.other]) (by rw [hr']) (by rw [happend]; exact hlen)
      (by rw [hr', happend]; exact hs) (by rw [hr', happend]; exact hroom) (by rw [hr']; exact hcap)
    refine ⟨r'', ?_⟩
    rw [List.length_cons, drain, hround, hr'', List.flatMap_cons]
    simp

end

end Client

end MiriWeirdness
