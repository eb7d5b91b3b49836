import MiriWeirdness.Lemmas.RingRecords
import MiriWeirdness.Library.Reservations
import MiriWeirdness.Pushers
import Mathlib.Data.List.Nodup

/-!
# What concurrent pushes keep

A rejected push takes its reservation back after others have reserved above it, so the calls that are outstanding may hold the same
ticket and places that overlap. `Queueing` is what every step keeps all the same: the outstanding calls are `Reservations.Reserved`, and
what those have written whose turn can still come is in the buffer, because whoever would write there has a ticket that is too high.
-/

namespace MiriWeirdness

open Buffer (Bytes slice)
open Reservations (Placed Reserved Chain)

/-- The size of a record. -/
def recordSize {ι : Type} (data : ι → List UInt8) (i : ι) : ℕ := headerSize + (data i).length

theorem recordsSize_map {ι : Type} (data : ι → List UInt8) (is : List ι) :
    recordsSize (is.map data) = Reservations.room (recordSize data) is := by
  induction is with
  | nil => rfl
  | cons i is ih => rw [List.map_cons, recordsSize_cons, Reservations.room_cons, ih, recordSize]

namespace Pushers

variable {ι : Type}

/-- What a call at this stage has written of its record, if the record is at this place. -/
def Progress (data : List UInt8) (buf : Bytes) : Stage → ℕ → Prop
  | .headed, c => slice buf c headerSize = halfBytes data.length
  | .written, c | .ready, c => slice buf c (headerSize + data.length) = record data
  | _, _ => True

/-- What a call has written of its record depends only on the bytes at its place. -/
theorem Progress.congr {data : List UInt8} {buf buf' : Bytes} {st : Stage} {c : ℕ} (h : Progress data buf st c)
    (hb : ∀ k, c ≤ k → k < c + (headerSize + data.length) → buf' k = buf k) : Progress data buf' st c := by
  cases st with
  | headed =>
    rw [Progress, Buffer.slice_congr fun k h₁ h₂ => hb k h₁ (by omega)]
    exact h
  | written | ready =>
    rw [Progress, Buffer.slice_congr fun k h₁ h₂ => hb k h₁ (by omega)]
    exact h
  | _ => trivial

/-! ## Stages -/

section

variable [DecidableEq ι] {p : Stage → Prop} {stage : ι → Stage} {st : Stage} {i : ι} {is js : List ι}

/-- A list of the calls at certain stages stays one when a call goes to another of them, or from and to stages not among them. -/
theorem mem_iff_update (h : ∀ k, k ∈ is ↔ p (stage k)) (hst : p (stage i) ↔ p st) :
    ∀ k, k ∈ is ↔ p (Function.update stage i st k) := by
  intro k
  by_cases hk : k = i
  · subst hk
    rw [Function.update_self, h, hst]
  · rw [Function.update_of_ne hk, h]

theorem mem_iff_update_append (h : ∀ k, k ∈ is ↔ p (stage k)) (hst : p st) :
    ∀ k, k ∈ is ++ [i] ↔ p (Function.update stage i st k) := by
  intro k
  rw [List.mem_append, List.mem_singleton]
  by_cases hk : k = i
  · subst hk
    rw [Function.update_self]
    exact iff_of_true (Or.inr rfl) hst
  · rw [Function.update_of_ne hk, h]
    exact or_iff_left hk

theorem mem_iff_update_remove (h : ∀ k, k ∈ is ++ i :: js ↔ p (stage k)) (hnodup : (is ++ i :: js).Nodup) (hst : ¬p st) :
    ∀ k, k ∈ is ++ js ↔ p (Function.update stage i st k) := by
  intro k
  by_cases hk : k = i
  · subst hk
    rw [Function.update_self]
    refine iff_of_false (fun hmem => ?_) hst
    exact (List.nodup_cons.mp (List.nodup_middle.mp hnodup)).1 hmem
  · rw [Function.update_of_ne hk, ← h]
    simp [hk]

/-- A call at one of the stages, when another call has gone to a stage not among them. -/
theorem of_update {k : ι} (hk : p (Function.update stage i st k)) (hst : ¬p st) : k ≠ i ∧ p (stage k) := by
  have hne : k ≠ i := by
    rintro rfl
    rw [Function.update_self] at hk
    exact hst hk
  rw [Function.update_of_ne hne] at hk
  exact ⟨hne, hk⟩

/-- What holds of the calls at certain stages. -/
theorem forall_update {P : ι → Prop} (h : ∀ k, p (stage k) → P k) (hst : p st → P i) :
    ∀ k, p (Function.update stage i st k) → P k := by
  intro k hk
  by_cases hki : k = i
  · subst hki
    rw [Function.update_self] at hk
    exact hst hk
  · rw [Function.update_of_ne hki] at hk
    exact h k hk

end

/-! ## The invariant -/

/-- The tickets of the calls. -/
def tickets (marker : ι → Marker 64) (i : ι) : ℕ := (marker i).len.toNat

/-- The places of the calls. -/
def places (marker : ι → Marker 64) (i : ι) : ℕ := (marker i).head.toNat

section

variable [DecidableEq ι] {marker : ι → Marker 64} {m : Marker 64} {i k : ι}

theorem tickets_update (hk : k ≠ i) : tickets (Function.update marker i m) k = tickets marker k := by
  rw [tickets, tickets, Function.update_of_ne hk]

theorem places_update (hk : k ≠ i) : places (Function.update marker i m) k = places marker k := by
  rw [places, places, Function.update_of_ne hk]

end

/-- After the calls `pubs` were published, in this order, and with the calls `live` outstanding, in the order in which they have
reserved: the marker counts them all, the published records lie back to back from the start of the buffer, and the outstanding calls whose
turn can still come are preceded by all that they have to wait for. -/
structure Queueing (data : ι → List UInt8) (ms : Markers) (buf : Bytes) (cap : ℕ) (stage : ι → Stage) (marker : ι → Marker 64)
    (pubs live : List ι) : Prop where
  marks : ms = Markers.counting (Reservations.room (recordSize data) (pubs ++ live)) (pubs ++ live).length pubs.length 0 0 0
  bytes : Reservations.room (recordSize data) (pubs ++ live) < 2 ^ 32
  few : (pubs ++ live).length < 2 ^ 16
  nodup : (pubs ++ live).Nodup
  published : ∀ i, i ∈ pubs ↔ stage i = .published
  outstanding : ∀ i, i ∈ live ↔ (stage i).outstanding = true
  placed : Placed (tickets marker) (places marker) (recordSize data) 0 0 pubs
  reserved : Reserved (tickets marker) (places marker) (recordSize data) pubs.length (Reservations.room (recordSize data) pubs) live
  written : Chain (tickets marker) (recordSize data) (fun i => Progress (data i) buf (stage i)) pubs.length
    (Reservations.room (recordSize data) pubs) live
  stored : Stored buf (pubs.map data)
  room : Reservations.room (recordSize data) pubs ≤ cap
  fits : ∀ i, (stage i).admitted = true → places marker i + recordSize data i < cap
  turn : ∀ i, stage i = .ready → tickets marker i = pubs.length
  small : cap < maxCap

namespace Queueing

variable {data : ι → List UInt8} {ms : Markers} {buf : Bytes} {cap : ℕ} {stage : ι → Stage} {marker : ι → Marker 64} {pubs live : List ι}
  {i : ι}

section

variable (h : Queueing data ms buf cap stage marker pubs live)

include h

theorem head : (Marker.mk ms.marker).head.toNat = Reservations.room (recordSize data) (pubs ++ live) := by
  have hfew := h.few
  rw [List.length_append] at hfew
  rw [h.marks, Markers.counting_marker, Marker.head_word h.bytes h.few (by omega)]

theorem len : (Marker.mk ms.marker).len.toNat = (pubs ++ live).length := by
  have hfew := h.few
  rw [List.length_append] at hfew
  rw [h.marks, Markers.counting_marker, Marker.len_word h.bytes h.few (by omega)]

theorem finishedLen : (Marker.mk ms.marker).finishedLen.toNat = pubs.length := by
  have hfew := h.few
  rw [List.length_append] at hfew
  rw [h.marks, Markers.counting_marker, Marker.finishedLen_word h.bytes h.few (by omega)]

theorem remHead : (Marker.mk ms.removeMarker).head.toNat = 0 := by
  rw [h.marks, Markers.counting_removeMarker, Marker.head_word (by omega) (by omega) (by omega)]

/-- A call that has no reservation yet is in no list. -/
theorem not_mem_of_idle (hi : stage i = .idle) : i ∉ pubs ∧ i ∉ live := by
  rw [h.published, h.outstanding, hi]
  simp [Stage.outstanding]

/-- Where an outstanding call is among those that are outstanding. -/
theorem exists_append_of_outstanding (hi : (stage i).outstanding = true) : ∃ before after, live = before ++ i :: after :=
  List.append_of_mem ((h.outstanding i).mpr hi)

/-! ### The steps -/

variable [DecidableEq ι]

/-- A reservation. -/
theorem reserve (hi : stage i = .idle) (hb : (Marker.mk ms.marker).head.toNat + recordSize data i < 2 ^ 32)
    (hl : (Marker.mk ms.marker).len.toNat + 1 < 2 ^ 16) :
    Queueing data (ms.reserve (data i).length).2 buf cap (Function.update stage i .reserved) (Function.update marker i ⟨ms.marker⟩)
      pubs (live ++ [i]) := by
  rw [h.head] at hb
  rw [h.len] at hl
  obtain ⟨hpubs, hlive⟩ := h.not_mem_of_idle hi
  have hne : ∀ k ∈ live, k ≠ i := fun k hk hki => hlive (hki ▸ hk)
  have hne' : ∀ k ∈ pubs, k ≠ i := fun k hk hki => hpubs (hki ▸ hk)
  have hroom : Reservations.room (recordSize data) (pubs ++ (live ++ [i])) =
      Reservations.room (recordSize data) (pubs ++ live) + (headerSize + (data i).length) := by
    rw [← List.append_assoc, Reservations.room_append, Reservations.room_cons, Reservations.room_nil, Nat.add_zero, recordSize]
  have hlength : (pubs ++ (live ++ [i])).length = (pubs ++ live).length + 1 := by
    rw [← List.append_assoc, List.length_append, List.length_singleton]
  have hreserved : Reserved (tickets (Function.update marker i ⟨ms.marker⟩)) (places (Function.update marker i ⟨ms.marker⟩))
      (recordSize data) pubs.length (Reservations.room (recordSize data) pubs) live :=
    h.reserved.congr (fun k hk => tickets_update (hne k hk)) (fun k hk => places_update (hne k hk))
  have hwritten : Chain (tickets (Function.update marker i ⟨ms.marker⟩)) (recordSize data)
      (fun k => Progress (data k) buf (Function.update stage i .reserved k)) pubs.length (Reservations.room (recordSize data) pubs) live :=
    h.written.imp (fun k hk => tickets_update (hne k hk)) fun k hk c _ hq => by rwa [Function.update_of_ne (hne k hk)]
  refine ⟨?_, ?_, ?_, ?_, ?_, ?_, ?_, ?_, ?_, h.stored, h.room, ?_, ?_, h.small⟩
  · rw [hroom, hlength]
    rw [recordSize] at hb
    have hms := h.marks
    subst hms
    rw [Markers.reserve_counting (by omega)]
  · rw [hroom]
    exact hb
  · rw [hlength]
    exact hl
  · rw [← List.append_assoc]
    exact List.nodup_append_comm.mpr (List.nodup_cons.mpr ⟨by simp [hpubs, hlive], h.nodup⟩)
  · exact mem_iff_update (p := (· = .published)) h.published (by simp [hi])
  · exact mem_iff_update_append (p := (Stage.outstanding · = true)) h.outstanding rfl
  · exact h.placed.congr (fun k hk => tickets_update (hne' k hk)) (fun k hk => places_update (hne' k hk))
  · refine hreserved.append_singleton ?_ ?_
    · rw [tickets, Function.update_self, h.len, List.length_append]
    · rw [places, Function.update_self, h.head, Reservations.room_append]
  · refine hwritten.append_singleton fun c => ?_
    rw [Function.update_self]
    trivial
  · intro k hk
    obtain ⟨hki, hk⟩ := of_update (p := (Stage.admitted · = true)) hk (by decide)
    rw [places_update hki]
    exact h.fits k hk
  · intro k hk
    obtain ⟨hki, hk⟩ := of_update (p := (· = .ready)) hk (by decide)
    rw [tickets_update hki]
    exact h.turn k hk

/-- A call that goes on to another stage at which it is outstanding, and writes only into its own record. -/
theorem advance {st : Stage} {buf' : Bytes} (hi : (stage i).outstanding = true) (hst : st.outstanding = true)
    (hb : ∀ k, k < places marker i ∨ places marker i + recordSize data i ≤ k → buf' k = buf k)
    (hprogress : Progress (data i) buf (stage i) (places marker i) → Progress (data i) buf' st (places marker i))
    (hfits : st.admitted = true → places marker i + recordSize data i < cap)
    (hturn : st = .ready → tickets marker i = pubs.length) :
    Queueing data ms buf' cap (Function.update stage i st) marker pubs live := by
  have hmem : i ∈ live := (h.outstanding i).mpr hi
  have hnodup := (List.nodup_append.mp h.nodup).2.1
  refine { h with published := ?_, outstanding := ?_, written := ?_, stored := ?_, fits := ?_, turn := ?_ }
  · refine mem_iff_update (p := (· = .published)) h.published (iff_of_false ?_ ?_)
    · intro hpub
      rw [hpub] at hi
      cases hi
    · rintro rfl
      cases hst
  · exact mem_iff_update (p := (Stage.outstanding · = true)) h.outstanding (iff_of_true hi hst)
  · refine h.written.update h.reserved hnodup hmem ?_ ?_
    · rw [Function.update_self]
      exact hprogress
    · intro k _ hk c hc hq
      rw [Function.update_of_ne hk]
      refine hq.congr fun b hb₁ hb₂ => hb b ?_
      rw [recordSize] at hc
      omega
  · have hle := h.reserved.le_start hmem
    refine h.stored.congr fun b hb' => hb b (Or.inl ?_)
    rw [recordsSize_map] at hb'
    omega
  · exact forall_update (p := (Stage.admitted · = true)) h.fits hfits
  · exact forall_update (p := (· = .ready)) h.turn hturn

/-- The capacity check: a call that passes it has room for its record. -/
theorem check (hi : stage i = .reserved) :
    ∃ full, ms.full cap (marker i) (data i).length = .ok full ∧
      Queueing data ms buf cap (Function.update stage i (if full then .rejected else .accepted)) marker pubs live := by
  have hout : (stage i).outstanding = true := by
    rw [hi]
    rfl
  have hfull := @Markers.full_eq _ 0 (data i).length cap ms (marker i) rfl h.remHead (Nat.zero_le _)
  rw [Nat.sub_zero] at hfull
  refine ⟨_, hfull, ?_⟩
  by_cases hc : (marker i).head.toNat + (data i).length + headerSize ≥ cap
  · rw [decide_eq_true hc]
    exact h.advance hout rfl (fun _ _ => rfl) (fun _ => trivial) (by rintro ⟨⟩) (by rintro ⟨⟩)
  · rw [decide_eq_false hc]
    have hfits : places marker i + recordSize data i < cap := by
      unfold places recordSize
      omega
    exact h.advance hout rfl (fun _ _ => rfl) (fun _ => trivial) (fun _ => hfits) (by rintro ⟨⟩)

/-- The header is written, inside of the buffer. -/
theorem writeHeader (hi : stage i = .accepted) :
    places marker i + headerSize ≤ cap ∧
      Queueing data ms (Buffer.write buf (places marker i) (halfBytes (data i).length)) cap (Function.update stage i .headed) marker
        pubs live := by
  have hout : (stage i).outstanding = true := by
    rw [hi]
    rfl
  have hfits := h.fits i (by rw [hi]; rfl)
  refine ⟨?_, h.advance hout rfl (fun b hb => Buffer.write_of_disjoint ?_) (fun _ => ?_) (fun _ => hfits) (by rintro ⟨⟩)⟩
  · unfold recordSize at hfits
    omega
  · unfold recordSize at hb
    rw [halfBytes_length]
    omega
  · exact Buffer.slice_write_self

/-- The payload is written behind the header, inside of the buffer. -/
theorem writePayload (hi : stage i = .headed) :
    places marker i + headerSize + (data i).length ≤ cap ∧
      Queueing data ms (Buffer.write buf (places marker i + headerSize) (data i)) cap (Function.update stage i .written) marker
        pubs live := by
  have hout : (stage i).outstanding = true := by
    rw [hi]
    rfl
  have hfits := h.fits i (by rw [hi]; rfl)
  refine ⟨?_, h.advance hout rfl (fun b hb => Buffer.write_of_disjoint ?_) (fun hheader => ?_) (fun _ => hfits) (by rintro ⟨⟩)⟩
  · unfold recordSize at hfits
    omega
  · unfold recordSize at hb
    omega
  · rw [hi] at hheader
    refine (@Buffer.slice_append_iff _ _ (halfBytes (data i).length) (data i)).mpr ⟨?_, Buffer.slice_write_self⟩
    rw [halfBytes_length, Buffer.slice_write_of_disjoint (Or.inl (Nat.le_refl _))]
    exact hheader

/-- The wait is over. -/
theorem wait (hi : stage i = .written) (hturn : ms.isTurn (marker i) = true) :
    Queueing data ms buf cap (Function.update stage i .ready) marker pubs live := by
  have hout : (stage i).outstanding = true := by
    rw [hi]
    rfl
  have hfits := h.fits i (by rw [hi]; rfl)
  have hticket := (@Markers.isTurn_iff _ _ ms (marker i) h.finishedLen rfl).mp hturn
  refine h.advance hout rfl (fun _ _ => rfl) (fun hrecord => ?_) (fun _ => hfits) (fun _ => hticket.symm)
  rw [hi] at hrecord
  exact hrecord

/-- A reservation is taken back. -/
theorem rollback (hi : stage i = .rejected) :
    ∃ before after, live = before ++ i :: after ∧
      Queueing data (ms.rollback (data i).length) buf cap (Function.update stage i .rolledBack) marker pubs (before ++ after) := by
  obtain ⟨before, after, rfl⟩ := h.exists_append_of_outstanding (by rw [hi]; rfl)
  refine ⟨before, after, rfl, ?_⟩
  have hroom : Reservations.room (recordSize data) (pubs ++ (before ++ i :: after)) =
      Reservations.room (recordSize data) (pubs ++ (before ++ after)) + (headerSize + (data i).length) := by
    simp only [Reservations.room_append, Reservations.room_cons, recordSize]
    omega
  have hlength : (pubs ++ (before ++ i :: after)).length = (pubs ++ (before ++ after)).length + 1 := by
    simp only [List.length_append, List.length_cons]
    omega
  have hbytes := h.bytes
  have hfew := h.few
  have hnodup := (List.nodup_append.mp h.nodup).2.1
  have hmarks := h.marks
  rw [hroom] at hbytes hmarks
  rw [hlength] at hfew hmarks
  have hsub : (pubs ++ (before ++ after)).Sublist (pubs ++ (before ++ i :: after)) :=
    List.Sublist.append_left (List.Sublist.append_left (List.sublist_cons_self i after) before) pubs
  have hwritten := h.written.remove h.reserved
  refine ⟨?_, by omega, by omega, h.nodup.sublist hsub, ?_, ?_, h.placed, h.reserved.remove, ?_, h.stored, h.room, ?_, ?_, h.small⟩
  · rw [hmarks, Markers.rollback_counting (by omega)]
  · exact mem_iff_update (p := (· = .published)) h.published (by simp [hi])
  · exact mem_iff_update_remove (p := (Stage.outstanding · = true)) h.outstanding hnodup (by decide)
  · refine hwritten.imp (fun _ _ => rfl) fun k hk c _ hq => ?_
    have hki : k ≠ i := by
      rintro rfl
      exact (List.nodup_cons.mp (List.nodup_middle.mp hnodup)).1 hk
    rw [Function.update_of_ne hki]
    exact hq
  · exact forall_update (p := (Stage.admitted · = true)) h.fits nofun
  · exact forall_update (p := (· = .ready)) h.turn nofun

/-- A call is published: it is the first of those outstanding, and its record stands behind those published before. -/
theorem publish (hi : stage i = .ready) :
    ∃ rest, live = i :: rest ∧ Queueing data ms.publish buf cap (Function.update stage i .published) marker (pubs ++ [i]) rest := by
  have hmem : i ∈ live := (h.outstanding i).mpr (by rw [hi]; rfl)
  have hturn := h.turn i hi
  obtain ⟨rest, rfl, hplace⟩ := h.reserved.first hmem hturn
  refine ⟨rest, rfl, ?_⟩
  obtain ⟨hrecord, hwritten⟩ := h.written hturn
  have hfits := h.fits i (by rw [hi]; rfl)
  have happend : pubs ++ [i] ++ rest = pubs ++ i :: rest := List.append_cons pubs i rest ▸ rfl
  have hroom : Reservations.room (recordSize data) (pubs ++ [i]) = Reservations.room (recordSize data) pubs + recordSize data i := by
    rw [Reservations.room_append, Reservations.room_cons, Reservations.room_nil, Nat.add_zero]
  have hnodup := (List.nodup_append.mp h.nodup).2.1
  have hother : ∀ k ∈ rest, k ≠ i := fun k hk hki => (List.nodup_cons.mp hnodup).1 (hki ▸ hk)
  refine ⟨?_, ?_, ?_, ?_, ?_, ?_, ?_, ?_, ?_, ?_, ?_, ?_, ?_, h.small⟩
  · rw [happend, h.marks, Markers.publish_counting, @List.length_append _ pubs [i], List.length_singleton]
  · rw [happend]
    exact h.bytes
  · rw [happend]
    exact h.few
  · rw [happend]
    exact h.nodup
  · exact mem_iff_update_append (p := (· = .published)) h.published rfl
  · exact @mem_iff_update_remove _ _ (Stage.outstanding · = true) _ _ _ [] rest h.outstanding hnodup (by decide)
  · refine Reservations.placed_append.mpr ⟨h.placed, ?_, ?_, trivial⟩
    · rw [hturn, Nat.zero_add]
    · rw [hplace, Nat.zero_add]
  · rw [hroom, List.length_append]
    exact h.reserved.2.2.2
  · rw [hroom, List.length_append]
    refine hwritten.imp (fun _ _ => rfl) fun k hk c _ hq => ?_
    rw [Function.update_of_ne (hother k hk)]
    exact hq
  · rw [List.map_append, List.map_singleton, stored_append_iff]
    refine ⟨h.stored, ?_⟩
    rw [hi] at hrecord
    rw [recordsSize_map, recordsSize_cons, recordsSize_nil, Nat.add_zero, records_cons, records_nil, List.append_nil]
    exact hrecord
  · rw [hroom]
    omega
  · exact forall_update (p := (Stage.admitted · = true)) h.fits fun _ => hfits
  · intro k hk
    -- no other call is ready, for its turn would be that of the first as well
    obtain ⟨hki, hk⟩ := of_update (p := (· = .ready)) hk (by decide)
    obtain ⟨_, hfirst, -⟩ := h.reserved.first ((h.outstanding k).mpr (by rw [hk]; rfl)) (h.turn k hk)
    exact absurd (List.cons.inj hfirst).1.symm hki

end

end Queueing

end Pushers

end MiriWeirdness
