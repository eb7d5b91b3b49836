import MiriWeirdness.Lemmas.PushersRun
import MiriWeirdness.Lemmas.RingQueue
import MiriWeirdness.Remover

/-!
# What the pushers and the remover keep

A remover changes what a pusher sees in two ways only: the bytes of popped records may be written through a guard, and the capacity
check counts the bytes that were popped as free. `Shadows` relates the ring to one from which nothing was ever removed; as long as no
push is let into the room that was freed, every step of a pusher is a step there too, and what is known of pushers alone carries over.
-/

namespace MiriWeirdness

open Buffer (Bytes slice)

/-! ## Pushers beside a remover -/

namespace Pushers

variable {ι : Type} {data : ι → List UInt8}

/-- A call that passes the capacity check would have passed it if nothing had been removed. -/
def Spare (data : ι → List UInt8) (s : Pushers ι) (i : ι) : Prop :=
  s.stage i = .reserved → s.ring.full s.ring.cap (s.marker i) (data i).length = .ok false →
    (s.marker i).head.toNat + (headerSize + (data i).length) < s.ring.cap

instance (data : ι → List UInt8) (s : Pushers ι) (i : ι) : Decidable (Spare data s i) :=
  inferInstanceAs (Decidable (s.stage i = .reserved → s.ring.full _ _ _ = .ok false → _ < _))

/-- The pushers `a` see what the pushers `s` see, from the offset `b` on, in a ring from which nothing was removed. -/
structure Shadows (b : ℕ) (s a : Pushers ι) : Prop where
  stage : a.stage = s.stage
  marker : a.marker = s.marker
  word : a.ring.marker = s.ring.marker
  cap : a.ring.cap = s.ring.cap
  kept : a.ring.removeMarker = 0
  buf : ∀ k, b ≤ k → s.ring.buf k = a.ring.buf k

/-- Writes to buffers that agree from an offset on. -/
theorem write_congr {m m' : Bytes} {b off : ℕ} {bs : List UInt8} (h : ∀ k, b ≤ k → m k = m' k) :
    ∀ k, b ≤ k → Buffer.write m off bs k = Buffer.write m' off bs k := by
  intro k hk
  unfold Buffer.write
  rw [h k hk]

/-- The capacity check, in a ring from which nothing was removed and in one from which something was. -/
theorem full_shadow {ms as : Markers} {m : Marker 64} {n cap : ℕ} {full : Bool} (hkept : as.removeMarker = 0)
    (hremoved : (Marker.mk ms.removeMarker).head.toNat ≤ m.head.toNat)
    (hspare : ms.full cap m n = .ok false → m.head.toNat + (headerSize + n) < cap) (h : as.full cap m n = .ok full) :
    ms.full cap m n = .ok full := by
  have hzero : (Marker.mk as.removeMarker).head.toNat = 0 := by
    rw [hkept]
    rfl
  rw [@Markers.full_eq _ _ n cap ms m rfl rfl hremoved] at hspare ⊢
  rw [@Markers.full_eq _ _ n cap as m rfl hzero (Nat.zero_le _)] at h
  obtain rfl := Except.ok.inj h
  refine congrArg Except.ok (decide_eq_decide.mpr ⟨fun hfull => by omega, fun hfull => ?_⟩)
  by_contra hnot
  have := hspare (congrArg Except.ok (decide_eq_false hnot))
  omega

/-- A step of a call, seen from an offset that is not behind its record. -/
theorem Shadows.step [DecidableEq ι] {b : ℕ} {s a : Pushers ι} {i : ι} {x : Pushers ι × List ι} (h : Shadows b s a)
    (hremoved : (Marker.mk s.ring.removeMarker).head.toNat ≤ b)
    (hplace : (s.stage i).outstanding = true → b ≤ places s.marker i) (hspare : Spare data s i) (ha : Pushers.step data a i = .ok x) :
    ∃ s', Pushers.step data s i = .ok (s', x.2) ∧ Shadows b s' x.1 ∧ s'.ring.removeMarker = s.ring.removeMarker ∧
      ∀ k < b, s'.ring.buf k = s.ring.buf k := by
  obtain ⟨⟨⟨w, removed⟩, buf, cap⟩, stage, marker⟩ := s
  obtain ⟨⟨⟨w', removed'⟩, buf', cap'⟩, stage', marker'⟩ := a
  obtain ⟨hstage, hmarker, hword, hcap, hkept, hbuf⟩ := h
  simp only at hstage hmarker hword hcap hkept hbuf hremoved hplace
  subst hstage hmarker hword hcap
  cases hi : stage' i with
  | idle =>
    simp only [Pushers.step, hi, Markers.reserve] at ha ⊢
    cases ha
    exact ⟨_, rfl, ⟨rfl, rfl, rfl, rfl, hkept, hbuf⟩, rfl, fun _ _ => rfl⟩
  | rejected =>
    simp only [Pushers.step, hi, Markers.rollback] at ha ⊢
    cases ha
    exact ⟨_, rfl, ⟨rfl, rfl, rfl, rfl, hkept, hbuf⟩, rfl, fun _ _ => rfl⟩
  | ready =>
    -- the increment is kept from being computed
    simp only [Pushers.step, hi, Markers.publish] at ha ⊢
    generalize (Marker.new 0 0 1 : Marker 64).raw = one at ha ⊢
    cases ha
    exact ⟨_, rfl, ⟨rfl, rfl, rfl, rfl, hkept, hbuf⟩, rfl, fun _ _ => rfl⟩
  | published | rolledBack =>
    simp only [Pushers.step, hi] at ha ⊢
    cases ha
    exact ⟨_, rfl, ⟨rfl, rfl, rfl, rfl, hkept, hbuf⟩, rfl, fun _ _ => rfl⟩
  | reserved =>
    have hle := hplace (by rw [hi]; rfl)
    simp only [Pushers.step, hi] at ha ⊢
    obtain ⟨full, hfull, hx⟩ := bind_eq_ok.mp ha
    cases hx
    rw [full_shadow hkept (Nat.le_trans hremoved hle) (hspare hi) hfull, ok_bind]
    exact ⟨_, rfl, ⟨rfl, rfl, rfl, rfl, hkept, hbuf⟩, rfl, fun _ _ => rfl⟩
  | accepted =>
    have hle := hplace (by rw [hi]; rfl)
    simp only [Pushers.step, hi, BBRing.writeHeader] at ha ⊢
    obtain ⟨r, hr, hx⟩ := bind_eq_ok.mp ha
    obtain ⟨hin, rfl⟩ := BBRing.write_eq_ok.mp hr
    cases hx
    rw [(BBRing.write_eq_ok (r := ⟨⟨w', removed⟩, buf, cap'⟩)).mpr ⟨hin, rfl⟩, ok_bind]
    exact ⟨_, rfl, ⟨rfl, rfl, rfl, rfl, hkept, write_congr hbuf⟩, rfl,
      fun k hk => Buffer.write_of_disjoint (Or.inl (Nat.lt_of_lt_of_le hk hle))⟩
  | headed =>
    have hle := hplace (by rw [hi]; rfl)
    simp only [Pushers.step, hi, BBRing.writePayload] at ha ⊢
    obtain ⟨r, hr, hx⟩ := bind_eq_ok.mp ha
    obtain ⟨hin, rfl⟩ := BBRing.write_eq_ok.mp hr
    cases hx
    rw [(BBRing.write_eq_ok (r := ⟨⟨w', removed⟩, buf, cap'⟩)).mpr ⟨hin, rfl⟩, ok_bind]
    unfold places at hle
    exact ⟨_, rfl, ⟨rfl, rfl, rfl, rfl, hkept, write_congr hbuf⟩, rfl,
      fun k hk => Buffer.write_of_disjoint (Or.inl (by omega))⟩
  | written =>
    have hturn : Markers.isTurn ⟨w', removed⟩ (marker' i) = Markers.isTurn ⟨w', removed'⟩ (marker' i) := rfl
    simp only [Pushers.step, hi] at ha ⊢
    by_cases hready : Markers.isTurn ⟨w', removed'⟩ (marker' i) = true
    · rw [if_pos hready] at ha
      cases ha
      rw [if_pos (hturn.trans hready)]
      exact ⟨_, rfl, ⟨rfl, rfl, rfl, rfl, hkept, hbuf⟩, rfl, fun _ _ => rfl⟩
    · rw [if_neg hready] at ha
      cases ha
      rw [if_neg (hturn ▸ hready)]
      exact ⟨_, rfl, ⟨rfl, rfl, rfl, rfl, hkept, hbuf⟩, rfl, fun _ _ => rfl⟩

end Pushers

/-! ## The invariant -/

namespace RingThreads

open Reservations (room)
open Marker (word)

variable {ι : Type} {data : ι → List UInt8}

/-- What is known of the marker that a call of `pop_front` has loaded: the number of records popped before, and, if their guards were
all dropped, where the next record is. -/
def Loaded (data : ι → List UInt8) (dropped held pending : List ι) : Removal → Prop
  | .idle | .turnedAway => True
  | .counted rem => rem.len.toNat = (dropped ++ held).length ∧
      (rem.finishedLen = rem.len → held = [] ∧ rem.head.toNat = room (recordSize data) dropped)
  | .waiting rem => rem.len.toNat = (dropped ++ held).length ∧ pending ≠ []
  | .reading rem => held = [] ∧ rem.head.toNat = room (recordSize data) dropped ∧ pending ≠ []

/-- Records that are published later change nothing. -/
theorem Loaded.append {dropped held pending published : List ι} {removal : Removal} (h : Loaded data dropped held pending removal) :
    Loaded data dropped held (pending ++ published) removal := by
  cases removal with
  | idle | turnedAway => trivial
  | counted rem => exact h
  | waiting rem => exact ⟨h.1, by simp [h.2]⟩
  | reading rem => exact ⟨h.1, h.2.1, by simp [h.2.2]⟩

/-- A state with the events that led to it: the calls published so far are those whose guards were dropped, the one, at most, whose
guard is alive, and those still in the queue; seen from behind the popped records, the ring is one from which nothing was removed. -/
structure Serves (data : ι → List UInt8) (s : RingThreads ι × List (Fifo.Event (List UInt8))) (a : Pushers ι)
    (dropped held pending live : List ι) : Prop where
  shadows : Pushers.Shadows (room (recordSize data) (dropped ++ held)) s.1.toPushers a
  queued : Pushers.Queued data (a, dropped ++ held ++ pending) live
  replay : Fifo.replay [] s.2 = some (pending.map data)
  taken : Fifo.taken s.2 = (dropped ++ held).map data
  removed : s.1.ring.removeMarker =
    word (room (recordSize data) dropped) ((dropped ++ held).length + s.1.removal.calls) dropped.length
  loaded : Loaded data dropped held pending s.1.removal
  guards : held = [] ∧ s.1.guards = [] ∨
    ∃ i, held = [i] ∧ s.1.guards = [{ ptr := room (recordSize data) dropped + headerSize, len := (data i).length }]

/-- The remover takes a step to this stage that shows nothing and changes no byte of the buffer. -/
def GoesOn [DecidableEq ι] (data : ι → List UInt8) (s : RingThreads ι × List (Fifo.Event (List UInt8))) (a : Pushers ι)
    (dropped held pending live : List ι) (removal : Removal) : Prop :=
  ∃ s', step data s.1 .pop = .ok (s', []) ∧ Serves data (s', s.2) a dropped held pending live ∧ s'.removal = removal ∧
    s'.ring.buf = s.1.ring.buf ∧ s'.guards = s.1.guards

namespace Serves

variable {s : RingThreads ι × List (Fifo.Event (List UInt8))} {a : Pushers ι} {dropped held pending live : List ι}

section

variable (h : Serves data s a dropped held pending live)

include h

/-- The published records fit into the buffer. -/
theorem room_le : room (recordSize data) dropped + room (recordSize data) held + room (recordSize data) pending ≤ s.1.ring.cap := by
  have hroom := h.queued.room
  rw [Reservations.room_append, Reservations.room_append, h.shadows.cap] at hroom
  exact hroom

theorem cap_lt : s.1.ring.cap < maxCap := by
  have := h.queued.small
  rwa [h.shadows.cap] at this

/-- Fewer than 2^14 records fit into a buffer. -/
theorem few : (dropped ++ held ++ pending).length < 2 ^ 14 := by
  have hle := length_le_recordsSize ((dropped ++ held ++ pending).map data)
  have hroom := h.room_le
  have hcap := h.cap_lt
  rw [List.length_map, recordsSize_map, Reservations.room_append, Reservations.room_append] at hle
  unfold headerSize at hle
  unfold maxCap at hcap
  omega

/-- The fields of the marker of the remover. -/
theorem reads : Marker.Reads ⟨s.1.ring.removeMarker⟩ (room (recordSize data) dropped)
    ((dropped ++ held).length + s.1.removal.calls) dropped.length := by
  have hfew := h.few
  have hroom := h.room_le
  have hcap := h.cap_lt
  have hcalls : s.1.removal.calls ≤ 1 := by
    unfold Removal.calls
    split <;> omega
  rw [List.length_append, List.length_append] at hfew
  unfold maxCap at hcap
  rw [h.removed, List.length_append]
  exact Marker.reads_word (by omega) (by omega) (by omega)

theorem finishedLen : (Marker.mk s.1.ring.marker).finishedLen.toNat = (dropped ++ held ++ pending).length := by
  have := h.queued.finishedLen
  rwa [h.shadows.word] at this

/-- No outstanding call of `push` has its place below the records that were popped. -/
theorem le_place {i : ι} (hi : (s.1.stage i).outstanding = true) :
    room (recordSize data) (dropped ++ held) ≤ Pushers.places s.1.marker i := by
  have hmem : i ∈ live := (h.queued.outstanding i).mpr (by rw [h.shadows.stage]; exact hi)
  have hle := h.queued.reserved.le_start hmem
  rw [h.shadows.marker, Reservations.room_append] at hle
  omega

/-! ### The steps of the pushers -/

variable [DecidableEq ι]

/-- A step of a call of `push`. -/
theorem push {i : ι} (hno : Pushers.NoOverflow data (s.1.toPushers, []) i) (hspare : Pushers.Spare data s.1.toPushers i) :
    ∃ p published a' live', step data s.1 (.push i) = .ok ({ s.1 with toPushers := p }, published.map fun i => .accepted (data i)) ∧
      Serves data ({ s.1 with toPushers := p }, s.2 ++ published.map fun i => .accepted (data i)) a' dropped held (pending ++ published)
        live' ∧ ∀ k < room (recordSize data) (dropped ++ held), p.ring.buf k = s.1.ring.buf k := by
  have hno' : Pushers.NoOverflow data (a, dropped ++ held ++ pending) i := by
    unfold Pushers.NoOverflow at hno ⊢
    rw [h.shadows.stage, h.shadows.word]
    exact hno
  obtain ⟨x, live', hx, hqueued, -⟩ := h.queued.step hno'
  obtain ⟨⟨a', published⟩, ha, rfl⟩ := Runs.logged_eq_ok.mp hx
  have hremoved : (Marker.mk s.1.ring.removeMarker).head.toNat ≤ room (recordSize data) (dropped ++ held) := by
    rw [h.reads.head, Reservations.room_append]
    exact Nat.le_add_right _ _
  obtain ⟨p, hp, hshadows, hkept, hbuf⟩ := h.shadows.step hremoved h.le_place hspare ha
  refine ⟨p, published, a', live', ?_, ⟨hshadows, ?_, ?_, ?_, ?_, h.loaded.append, h.guards⟩, hbuf⟩
  · simp only [step, hp, ok_bind]
  · rw [← List.append_assoc]
    exact hqueued
  · rw [List.map_append]
    exact Fifo.replay_append_accepted h.replay data published
  · rw [Fifo.taken_append, Fifo.taken_accepted, List.append_nil]
    exact h.taken
  · exact hkept.trans h.removed

/-! ### The steps of the remover -/

/-- A step of `pop_front` that shows nothing. -/
theorem goesOn (removed : BitVec 64) {removal : Removal}
    (hpop : s.1.pop = .ok ({ s.1 with ring := { s.1.ring with removeMarker := removed }, removal }, []))
    (hremoved : removed = word (room (recordSize data) dropped) ((dropped ++ held).length + removal.calls) dropped.length)
    (hloaded : Loaded data dropped held pending removal) : GoesOn data s a dropped held pending live removal := by
  refine ⟨_, hpop, ⟨?_, h.queued, h.replay, h.taken, hremoved, hloaded, h.guards⟩, rfl, rfl, rfl⟩
  exact ⟨h.shadows.stage, h.shadows.marker, h.shadows.word, h.shadows.cap, h.shadows.kept, h.shadows.buf⟩

/-- The pop is counted. -/
theorem pop_idle (hi : s.1.removal = .idle) : GoesOn data s a dropped held pending live (.counted ⟨s.1.ring.removeMarker⟩) := by
  have hone : (Marker.new 0 1 0 : Marker 64).raw = word 0 1 0 :=
    Marker.raw_new (h := 0) (l := 1) (f := 0) (by decide) (by decide) (by decide)
  obtain ⟨hhead, hlen, hfin⟩ := h.reads
  have hremoved := h.removed
  rw [hi, Removal.calls] at hlen hremoved
  refine h.goesOn (s.1.ring.removeMarker + (Marker.new 0 1 0).raw) ?_ ?_ ?_
  · simp only [RingThreads.pop, hi]
  · rw [hone, hremoved, Marker.word_add]
    rfl
  · refine ⟨hlen, fun heq => ?_⟩
    have heq := congrArg BitVec.toNat heq
    rw [hfin, hlen, List.length_append] at heq
    exact ⟨List.eq_nil_of_length_eq_zero (by omega), hhead⟩

/-- The pop looks for a record: there is none, or it has to wait for the drop of a guard, or it can read the next one. -/
theorem pop_counted {rem : Marker 64} (hi : s.1.removal = .counted rem) :
    (pending = [] ∧ ∃ s', step data s.1 .pop = .ok (s', [.empty]) ∧
      Serves data (s', s.2 ++ [.empty]) a dropped held pending live ∧ s'.removal = .turnedAway ∧ s'.ring.buf = s.1.ring.buf ∧
      s'.guards = s.1.guards) ∨
    (rem.finishedLen ≠ rem.len ∧ GoesOn data s a dropped held pending live (.waiting rem)) ∨
    (rem.finishedLen = rem.len ∧ GoesOn data s a dropped held pending live (.reading rem)) := by
  have hloaded := h.loaded
  rw [hi] at hloaded
  obtain ⟨hlen, hnext⟩ := hloaded
  have hfin := h.finishedLen
  have hremoved := h.removed
  rw [hi] at hremoved
  by_cases hempty : rem.len ≥ (Marker.mk s.1.ring.marker).finishedLen
  · have hnil : pending = [] := by
      rw [ge_iff_le, BitVec.le_def, hlen, hfin, @List.length_append _ (dropped ++ held)] at hempty
      exact List.eq_nil_of_length_eq_zero (by omega)
    refine Or.inl ⟨hnil, { s.1 with removal := .turnedAway }, ?_, ⟨h.shadows, h.queued, ?_, ?_, hremoved, trivial, h.guards⟩, rfl, rfl,
      rfl⟩
    · simp only [step, RingThreads.pop, hi]
      rw [if_pos hempty]
    · rw [Fifo.replay_append_singleton h.replay, hnil]
      rfl
    · rw [Fifo.taken_append, h.taken]
      exact List.append_nil _
  · have hcons : pending ≠ [] := by
      rintro rfl
      rw [List.append_nil] at hfin
      exact hempty (by rw [ge_iff_le, BitVec.le_def, hlen, hfin])
    by_cases hwait : rem.finishedLen = rem.len
    · refine Or.inr (Or.inr ⟨hwait, h.goesOn s.1.ring.removeMarker ?_ hremoved ⟨(hnext hwait).1, (hnext hwait).2, hcons⟩⟩)
      simp only [RingThreads.pop, hi]
      rw [if_neg hempty, if_neg (not_not.mpr hwait)]
    · refine Or.inr (Or.inl ⟨hwait, h.goesOn s.1.ring.removeMarker ?_ hremoved ⟨hlen, hcons⟩⟩)
      simp only [RingThreads.pop, hi]
      rw [if_neg hempty, if_pos hwait]

/-- A pop that has found nothing is taken back. -/
theorem pop_turnedAway (hi : s.1.removal = .turnedAway) : GoesOn data s a dropped held pending live .idle := by
  have hone : (Marker.new 0 1 0 : Marker 64).raw = word 0 1 0 :=
    Marker.raw_new (h := 0) (l := 1) (f := 0) (by decide) (by decide) (by decide)
  have hremoved := h.removed
  rw [hi, Removal.calls] at hremoved
  refine h.goesOn (s.1.ring.removeMarker - (Marker.new 0 1 0).raw) ?_ ?_ trivial
  · simp only [RingThreads.pop, hi]
  · have hadd := Marker.word_add (room (recordSize data) dropped) (dropped ++ held).length dropped.length 0 1 0
    simp only [Nat.add_zero] at hadd
    rw [hone, hremoved, ← hadd, BitVec.add_sub_cancel]
    rfl

/-- A pop waits for the drop of a guard. -/
theorem pop_waiting {rem : Marker 64} (hi : s.1.removal = .waiting rem) :
    (held ≠ [] ∧ GoesOn data s a dropped held pending live (.waiting rem)) ∨
    (held = [] ∧ GoesOn data s a dropped held pending live (.reading ⟨s.1.ring.removeMarker⟩)) := by
  have hloaded := h.loaded
  rw [hi] at hloaded
  obtain ⟨hlen, hcons⟩ := hloaded
  have hremoved := h.removed
  have hfin := h.reads.finishedLen
  rw [hi] at hremoved
  by_cases hwait : rem.len = (Marker.mk s.1.ring.removeMarker).finishedLen
  · have hnil : held = [] := by
      have := congrArg BitVec.toNat hwait
      rw [hlen, hfin, List.length_append] at this
      exact List.eq_nil_of_length_eq_zero (by omega)
    refine Or.inr ⟨hnil, h.goesOn s.1.ring.removeMarker ?_ hremoved ⟨hnil, h.reads.head, hcons⟩⟩
    simp only [RingThreads.pop, hi]
    rw [if_neg (not_not.mpr hwait)]
  · have hheld : held ≠ [] := by
      rintro rfl
      refine hwait (BitVec.eq_of_toNat_eq ?_)
      rw [hlen, hfin, List.append_nil]
    refine Or.inl ⟨hheld, h.goesOn s.1.ring.removeMarker ?_ hremoved ⟨hlen, hcons⟩⟩
    simp only [RingThreads.pop, hi]
    rw [if_pos hwait, ← hi]

/-- The pop reads the next record and makes a guard on it. -/
theorem pop_reading {rem : Marker 64} (hi : s.1.removal = .reading rem) :
    ∃ i rest s', held = [] ∧ pending = i :: rest ∧ step data s.1 .pop = .ok (s', [.popped (data i)]) ∧
      Serves data (s', s.2 ++ [.popped (data i)]) a dropped [i] rest live ∧ s'.removal = .idle ∧ s'.ring = s.1.ring ∧
      ∃ g, s'.guards = [g] ∧ s'.ring.asRef g = .ok (data i) := by
  have hloaded := h.loaded
  rw [hi] at hloaded
  obtain ⟨rfl, hhead, hcons⟩ := hloaded
  obtain ⟨i, rest, rfl⟩ := List.exists_cons_of_ne_nil hcons
  have hqueued := h.queued
  have hshadows := h.shadows
  have hremoved := h.removed
  have hroom := h.room_le
  have hcap := h.cap_lt
  have hhs : headerSize = 4 := rfl
  have hpubs : dropped ++ [] ++ i :: rest = dropped ++ [i] ++ rest := by simp
  rw [List.append_nil] at hshadows
  rw [hi, List.append_nil] at hremoved
  rw [hpubs] at hqueued
  rw [Reservations.room_nil, Reservations.room_cons, recordSize] at hroom
  unfold maxCap at hcap
  -- the record is where it was written, for nobody writes through a guard from there on
  have hstored := hqueued.stored
  rw [List.append_assoc, List.map_append, List.map_append, List.map_singleton] at hstored
  obtain ⟨hheader, hpayload⟩ := hstored.read
  rw [recordsSize_map] at hheader hpayload
  rw [← Buffer.slice_congr fun k hk _ => hshadows.buf k hk] at hheader
  rw [← Buffer.slice_congr fun k hk _ => hshadows.buf k (by omega)] at hpayload
  have hlength : s.1.ring.read (room (recordSize data) dropped) headerSize = .ok (halfBytes (data i).length) := by
    rw [BBRing.read, if_pos (by omega), hheader]
  have hread : s.1.ring.read (room (recordSize data) dropped + headerSize) (data i).length = .ok (data i) := by
    rw [BBRing.read, if_pos (by omega), hpayload]
  have hguard : s.1.ring.guardAt rem = .ok { ptr := room (recordSize data) dropped + headerSize, len := (data i).length } := by
    have hmod : room (recordSize data) dropped % s.1.ring.cap = room (recordSize data) dropped := Nat.mod_eq_of_lt (by omega)
    rw [BBRing.guardAt, if_neg (by omega)]
    simp only [hhead, hmod, hlength, ok_bind, halfOfBytes_halfBytes (show (data i).length < 2 ^ 32 by omega)]
  have hguards : s.1.guards = [] := by
    rcases h.guards with ⟨-, hguards⟩ | ⟨_, hcons, -⟩
    · exact hguards
    · cases hcons
  refine ⟨i, rest, { s.1 with removal := .idle, guards := _ }, rfl, rfl, ?_, ⟨?_, hqueued, ?_, ?_, ?_, trivial, Or.inr ⟨i, rfl, rfl⟩⟩,
    rfl, rfl, _, rfl, hread⟩
  · simp only [step, RingThreads.pop, hi, hguard, BBRing.asRef, hread, ok_bind, hguards, List.nil_append]
  · refine ⟨hshadows.stage, hshadows.marker, hshadows.word, hshadows.cap, hshadows.kept, fun k hk => hshadows.buf k ?_⟩
    rw [Reservations.room_append] at hk
    omega
  · rw [Fifo.replay_append_singleton h.replay]
    simp [Fifo.next]
  · rw [Fifo.taken_append, h.taken, List.append_nil, List.map_append]
    rfl
  · rw [hremoved, List.length_append, List.length_singleton]
    rfl

/-- Every step of `pop_front` can be taken; it moves a record from the queue to a new guard, or none. -/
theorem pop : ∃ s' es held' pending', step data s.1 .pop = .ok (s', es) ∧
    Serves data (s', s.2 ++ es) a dropped held' pending' live ∧ held' ++ pending' = held ++ pending ∧ s'.ring.buf = s.1.ring.buf ∧
    (held ≠ [] → s'.guards = s.1.guards) := by
  have of_goesOn : ∀ {removal}, GoesOn data s a dropped held pending live removal →
      ∃ s' es held' pending', step data s.1 .pop = .ok (s', es) ∧ Serves data (s', s.2 ++ es) a dropped held' pending' live ∧
        held' ++ pending' = held ++ pending ∧ s'.ring.buf = s.1.ring.buf ∧ (held ≠ [] → s'.guards = s.1.guards) := by
    intro removal hgoes
    obtain ⟨s', hs', hq, -, hbuf, hguards⟩ := hgoes
    exact ⟨s', [], held, pending, hs', by rwa [List.append_nil], rfl, hbuf, fun _ => hguards⟩
  cases hi : s.1.removal with
  | idle => exact of_goesOn (h.pop_idle hi)
  | counted rem =>
    rcases h.pop_counted hi with ⟨-, s', hs', hq, -, hbuf, hguards⟩ | ⟨-, hgoes⟩ | ⟨-, hgoes⟩
    · exact ⟨s', _, held, pending, hs', hq, rfl, hbuf, fun _ => hguards⟩
    · exact of_goesOn hgoes
    · exact of_goesOn hgoes
  | turnedAway => exact of_goesOn (h.pop_turnedAway hi)
  | waiting rem =>
    rcases h.pop_waiting hi with ⟨-, hgoes⟩ | ⟨-, hgoes⟩
    · exact of_goesOn hgoes
    · exact of_goesOn hgoes
  | reading rem =>
    obtain ⟨i, rest, s', rfl, rfl, hs', hq, -, hring, -⟩ := h.pop_reading hi
    exact ⟨s', _, [i], rest, hs', hq, rfl, by rw [hring], fun hne => absurd rfl hne⟩

/-! ### The guard -/

omit [DecidableEq ι] in
/-- The bytes of the guard that is alive end where the first record that is not popped starts. -/
theorem guard_end {k : ℕ} {g : BufGuard} (hg : s.1.guards[k]? = some g) :
    ∃ i, held = [i] ∧ k = 0 ∧ s.1.guards = [g] ∧ g = { ptr := room (recordSize data) dropped + headerSize, len := (data i).length } ∧
      g.ptr + g.len = room (recordSize data) (dropped ++ held) ∧ g.ptr + g.len ≤ s.1.ring.cap := by
  have hroom := h.room_le
  rcases h.guards with ⟨-, hnil⟩ | ⟨i, rfl, hguards⟩
  · simp [hnil] at hg
  · rw [hguards] at hg
    obtain ⟨hk, rfl⟩ := List.getElem?_eq_some_iff.mp hg
    obtain rfl : k = 0 := by simpa using hk
    rw [Reservations.room_cons, Reservations.room_nil, recordSize] at hroom
    refine ⟨i, rfl, rfl, hguards, rfl, ?_, ?_⟩
    · change room (recordSize data) dropped + headerSize + (data i).length = _
      rw [Reservations.room_append, Reservations.room_cons, Reservations.room_nil, recordSize, Nat.add_zero, Nat.add_assoc]
    · change room (recordSize data) dropped + headerSize + (data i).length ≤ _
      omega

omit [DecidableEq ι] in
/-- What a guard shows. -/
theorem asRef_eq {r : BBRing} {g : BufGuard} (hg : s.1.guards = [g]) (hr : r.cap = s.1.ring.cap) :
    r.asRef g = .ok (slice r.buf g.ptr g.len) := by
  obtain ⟨-, -, -, -, -, -, hin⟩ := h.guard_end (show s.1.guards[0]? = some g by rw [hg]; rfl)
  rw [BBRing.asRef, BBRing.read, if_pos (by omega)]

/-- A byte is written through a guard, and nothing else changes. -/
theorem write {k off : ℕ} {b : UInt8} :
    ∃ s', step data s.1 (.write k off b) = .ok (s', []) ∧ Serves data (s', s.2) a dropped held pending live ∧
      s'.removal = s.1.removal ∧ s'.guards = s.1.guards ∧ s'.ring.cap = s.1.ring.cap ∧
      ∀ g, s.1.guards = [g] →
        slice s'.ring.buf g.ptr g.len = if k = 0 then (slice s.1.ring.buf g.ptr g.len).set off b else slice s.1.ring.buf g.ptr g.len := by
  have hshadows := h.shadows
  cases hg : s.1.guards[k]? with
  | none =>
    refine ⟨s.1, ?_, h, rfl, rfl, rfl, fun g hguards => ?_⟩
    · simp only [step, RingThreads.write, hg, ok_bind]
    · have hk : k ≠ 0 := by
        rintro rfl
        simp [hguards] at hg
      rw [if_neg hk]
  | some g =>
    obtain ⟨i, -, rfl, hguards, -, hend, hin⟩ := h.guard_end hg
    by_cases hoff : off < g.len
    · have hlt : g.ptr + off + [b].length ≤ s.1.ring.cap := by
        rw [List.length_singleton]
        omega
      refine ⟨{ s.1 with ring := { s.1.ring with buf := Buffer.write s.1.ring.buf (g.ptr + off) [b] } }, ?_,
        ⟨?_, h.queued, h.replay, h.taken, h.removed, h.loaded, h.guards⟩, rfl, rfl, rfl, fun g' hg' => ?_⟩
      · simp only [step, RingThreads.write, hg, if_pos hoff, BBRing.write, if_pos hlt, ok_bind]
      · refine ⟨hshadows.stage, hshadows.marker, hshadows.word, hshadows.cap, hshadows.kept, fun j hj => ?_⟩
        refine (Buffer.write_of_disjoint (Or.inr ?_)).trans (hshadows.buf j hj)
        rw [List.length_singleton]
        omega
      · obtain rfl : g = g' := List.singleton_inj.mp (hguards.symm.trans hg')
        rw [if_pos rfl, Buffer.slice_write_singleton]
    · refine ⟨s.1, ?_, h, rfl, rfl, rfl, fun g' hg' => ?_⟩
      · simp only [step, RingThreads.write, hg, if_neg hoff, ok_bind]
      · obtain rfl : g = g' := List.singleton_inj.mp (hguards.symm.trans hg')
        rw [if_pos rfl, List.set_eq_of_length_le (by rw [Buffer.slice_length]; omega)]

omit [DecidableEq ι] in
/-- The marker that a call of `pop_front` has loaded, when the guard is dropped. -/
theorem loaded_drop {i : ι} (hheld : held = [i]) : Loaded data (dropped ++ [i]) [] pending s.1.removal := by
  have hloaded := h.loaded
  rw [hheld] at hloaded
  cases hi : s.1.removal with
  | idle | turnedAway => trivial
  | counted rem =>
    rw [hi] at hloaded
    rw [Loaded, List.append_nil]
    exact ⟨hloaded.1, fun heq => absurd (hloaded.2 heq).1 (by simp)⟩
  | waiting rem =>
    rw [hi] at hloaded
    rw [Loaded, List.append_nil]
    exact hloaded
  | reading rem =>
    rw [hi] at hloaded
    exact absurd hloaded.1 (by simp)

/-- A guard is dropped. -/
theorem drop {k : ℕ} :
    ∃ s' dropped' held', step data s.1 (.drop k) = .ok (s', []) ∧ Serves data (s', s.2) a dropped' held' pending live ∧
      dropped' ++ held' = dropped ++ held ∧ s'.removal = s.1.removal ∧ s'.ring.buf = s.1.ring.buf := by
  have hshadows := h.shadows
  cases hg : s.1.guards[k]? with
  | none =>
    refine ⟨s.1, dropped, held, ?_, h, rfl, rfl, rfl⟩
    simp only [step, RingThreads.drop, hg]
  | some g =>
    obtain ⟨i, rfl, rfl, hguards, hgi, -, hin⟩ := h.guard_end hg
    have hsize : (data i).length + headerSize < 2 ^ 32 := by
      have hroom := h.room_le
      have hcap := h.cap_lt
      rw [Reservations.room_cons, Reservations.room_nil, recordSize] at hroom
      unfold maxCap at hcap
      omega
    have hone : (Marker.new (BitVec.ofNat 64 ((data i).length + headerSize)) 0 1).raw = word ((data i).length + headerSize) 0 1 :=
      Marker.raw_new (l := 0) (f := 1) hsize (by decide) (by decide)
    refine ⟨s.1.drop 0, dropped ++ [i], [], rfl, ?_, List.append_nil _, ?_, ?_⟩
    · simp only [RingThreads.drop, hg]
      refine ⟨?_, ?_, h.replay, ?_, ?_, h.loaded_drop rfl, Or.inl ⟨rfl, by simp [hguards]⟩⟩
      · rw [List.append_nil]
        exact ⟨hshadows.stage, hshadows.marker, hshadows.word, hshadows.cap, hshadows.kept, hshadows.buf⟩
      · rw [List.append_nil]
        exact h.queued
      · rw [List.append_nil]
        exact h.taken
      · simp only [BBRing.dropGuard, Markers.dropGuard, hgi, hone, h.removed]
        rw [Marker.word_add, List.append_nil, Reservations.room_append, Reservations.room_cons, Reservations.room_nil, recordSize]
        simp only [List.length_append, List.length_singleton, Nat.add_zero, Nat.add_comm headerSize]
    · simp only [RingThreads.drop, hg]
    · simp only [RingThreads.drop, hg]
      rfl

end

end Serves

/-! ## Runs -/

/-- A step of a pusher overflows no counter and uses no room that pops have freed. -/
def Within (data : ι → List UInt8) (s : RingThreads ι × List (Fifo.Event (List UInt8))) : RingMove ι → Prop
  | .push i => Pushers.NoOverflow data (s.1.toPushers, []) i ∧ Pushers.Spare data s.1.toPushers i
  | .pop | .write .. | .drop _ => True

instance (data : ι → List UInt8) (s : RingThreads ι × List (Fifo.Event (List UInt8))) : (m : RingMove ι) → Decidable (Within data s m)
  | .push i => inferInstanceAs (Decidable (Pushers.NoOverflow data (s.1.toPushers, []) i ∧ Pushers.Spare data s.1.toPushers i))
  | .pop => isTrue trivial
  | .write .. => isTrue trivial
  | .drop _ => isTrue trivial

/-- A run has reached this state. -/
def Served (data : ι → List UInt8) (s : RingThreads ι × List (Fifo.Event (List UInt8))) : Prop :=
  ∃ a dropped held pending live, Serves data s a dropped held pending live

/-- No thread has touched a fresh ring. -/
theorem start_serves {cap : ℕ} {mem : Bytes} {r : BBRing} (hr : BBRing.new cap (some mem) = .ok r) :
    Serves data (start r, []) (Pushers.start r) [] [] [] [] := by
  have hmarkers : r.removeMarker = 0 := by
    unfold BBRing.new at hr
    by_cases hcap : cap ≥ (2 ^ 16 - 1) / 2 - 1
    · rw [if_pos hcap] at hr
      cases hr
    · rw [if_neg hcap] at hr
      cases hr
      rfl
  refine ⟨⟨rfl, rfl, rfl, rfl, hmarkers, fun _ _ => rfl⟩, Pushers.start_queued hr, rfl, rfl, ?_, trivial, Or.inl ⟨rfl, rfl⟩⟩
  have hword : word 0 0 0 = 0 := by simp [word, Packed.pack]
  exact hmarkers.trans hword.symm

variable [DecidableEq ι]

/-- Every move within these bounds can be made, and leads to a state like those before. -/
theorem Served.step {s : RingThreads ι × List (Fifo.Event (List UInt8))} {m : RingMove ι} (h : Served data s) (hm : Within data s m) :
    ∃ s', Runs.logged (step data) s m = .ok s' ∧ Served data s' := by
  obtain ⟨a, dropped, held, pending, live, hs⟩ := h
  cases m with
  | push i =>
    obtain ⟨p, published, a', live', hstep, hs', -⟩ := hs.push hm.1 hm.2
    exact ⟨_, Runs.logged_eq_ok.mpr ⟨_, hstep, rfl⟩, a', _, _, _, live', hs'⟩
  | pop =>
    obtain ⟨s', es, held', pending', hstep, hs', -⟩ := hs.pop
    exact ⟨_, Runs.logged_eq_ok.mpr ⟨_, hstep, rfl⟩, a, _, _, _, live, hs'⟩
  | write k off b =>
    obtain ⟨s', hstep, hs', -⟩ := @hs.write _ _ _ _ _ _ _ _ _ k off b
    exact ⟨_, Runs.logged_eq_ok.mpr ⟨_, hstep, rfl⟩, a, _, _, _, live, by rwa [List.append_nil]⟩
  | drop k =>
    obtain ⟨s', dropped', held', hstep, hs', -⟩ := @hs.drop _ _ _ _ _ _ _ _ _ k
    exact ⟨_, Runs.logged_eq_ok.mpr ⟨_, hstep, rfl⟩, a, _, _, _, live, by rwa [List.append_nil]⟩

/-- The bytes of a guard after a move, if the move writes through it. -/
def through (bytes : List UInt8) : RingMove ι → List UInt8
  | .write k off b => if k = 0 then bytes.set off b else bytes
  | .push _ | .pop | .drop _ => bytes

/-- As long as a guard is not dropped there is no other, and its bytes change by what is written through it only. -/
theorem Served.step_guarded {s : RingThreads ι × List (Fifo.Event (List UInt8))} {m : RingMove ι} {g : BufGuard} (h : Served data s)
    (hm : Within data s m) (hg : s.1.guards = [g]) (hdrop : ∀ k, m ≠ .drop k) :
    ∃ s', Runs.logged (RingThreads.step data) s m = .ok s' ∧ Served data s' ∧ s'.1.guards = [g] ∧
      slice s'.1.ring.buf g.ptr g.len = through (slice s.1.ring.buf g.ptr g.len) m := by
  obtain ⟨a, dropped, held, pending, live, hs⟩ := h
  obtain ⟨i, hheld, -, -, -, hend, -⟩ := hs.guard_end (show s.1.guards[0]? = some g by rw [hg]; rfl)
  cases m with
  | push i =>
    obtain ⟨p, published, a', live', hstep, hs', hbuf⟩ := hs.push hm.1 hm.2
    refine ⟨_, Runs.logged_eq_ok.mpr ⟨_, hstep, rfl⟩, ⟨a', _, _, _, live', hs'⟩, hg, Buffer.slice_congr fun k _ hk => hbuf k ?_⟩
    omega
  | pop =>
    obtain ⟨s', es, held', pending', hstep, hs', -, hbuf, hguards⟩ := hs.pop
    refine ⟨_, Runs.logged_eq_ok.mpr ⟨_, hstep, rfl⟩, ⟨a, _, _, _, live, hs'⟩, ?_, ?_⟩
    · rw [hguards (by simp [hheld]), hg]
    · rw [hbuf]
      rfl
  | write k off b =>
    obtain ⟨s', hstep, hs', -, hguards, -, hbytes⟩ := @hs.write _ _ _ _ _ _ _ _ _ k off b
    exact ⟨_, Runs.logged_eq_ok.mpr ⟨_, hstep, rfl⟩, ⟨a, _, _, _, live, by rwa [List.append_nil]⟩, hguards.trans hg, hbytes g hg⟩
  | drop k => exact absurd rfl (hdrop k)

/-- The steps of pushers between two steps of the remover. -/
theorem Served.exec_pushes {s : RingThreads ι × List (Fifo.Event (List UInt8))} {is : List ι} (h : Served data s)
    (his : Runs.Along (Runs.logged (RingThreads.step data)) (Within data) s (is.map .push)) :
    ∃ s', Runs.exec (Runs.logged (RingThreads.step data)) s (is.map .push) = .ok s' ∧ Served data s' ∧ s'.1.removal = s.1.removal ∧
      s'.1.guards = s.1.guards ∧ Fifo.taken s'.2 = Fifo.taken s.2 := by
  refine Runs.progress_history (fun _ (t : RingThreads ι × List (Fifo.Event (List UInt8))) => Served data t ∧
    t.1.removal = s.1.removal ∧ t.1.guards = s.1.guards ∧ Fifo.taken t.2 = Fifo.taken s.2) ⟨h, rfl, rfl, rfl⟩ ?_ his
  intro done m t hdone ⟨⟨a, dropped, held, pending, live, ht⟩, hremoval, hguards, htaken⟩ hm
  obtain ⟨i, -, rfl⟩ := List.mem_map.mp (hdone.subset (List.mem_append_right _ (List.mem_singleton_self m)))
  obtain ⟨p, published, a', live', hstep, ht', -⟩ := ht.push hm.1 hm.2
  refine ⟨_, Runs.logged_eq_ok.mpr ⟨_, hstep, rfl⟩, ⟨a', _, _, _, live', ht'⟩, hremoval, hguards, ?_⟩
  exact (Fifo.taken_append _ _).trans (by rw [Fifo.taken_accepted, htaken, List.append_nil])

/-- Pushers take their steps and then the remover its first: with no guard alive, the marker that it loads says that it need not wait. -/
theorem Served.exec_pop_idle {s : RingThreads ι × List (Fifo.Event (List UInt8))} {is : List ι} (h : Served data s)
    (hidle : s.1.removal = .idle) (hguards : s.1.guards = [])
    (his : Runs.Along (Runs.logged (RingThreads.step data)) (Within data) s (is.map .push ++ [.pop])) :
    ∃ s' rem, Runs.exec (Runs.logged (RingThreads.step data)) s (is.map .push ++ [.pop]) = .ok s' ∧ Served data s' ∧
      s'.1.removal = .counted rem ∧ rem.finishedLen = rem.len ∧ s'.1.guards = [] ∧ Fifo.taken s'.2 = Fifo.taken s.2 := by
  obtain ⟨s₁, hs₁, ⟨a, dropped, held, pending, live, hq⟩, hremoval, hguards₁, htaken⟩ := h.exec_pushes his.prefix
  rw [hidle] at hremoval
  rw [hguards] at hguards₁
  obtain ⟨t, hstep, hq', hcounted, -, hguards'⟩ := hq.pop_idle hremoval
  refine ⟨(t, s₁.2), _, ?_, ⟨_, _, _, _, _, hq'⟩, hcounted, ?_, hguards'.trans hguards₁, htaken⟩
  · refine Runs.exec_append.mpr ⟨s₁, hs₁, ?_⟩
    rw [Runs.exec_cons_ok (Runs.logged_eq_ok.mpr ⟨_, hstep, rfl⟩), Runs.exec_nil, List.append_nil]
  · have hheld : held = [] := by
      rcases hq.guards with ⟨hheld, -⟩ | ⟨_, -, hcons⟩
      · exact hheld
      · rw [hguards₁] at hcons
        cases hcons
    have hreads := hq.reads
    rw [hremoval, hheld, List.append_nil] at hreads
    exact BitVec.eq_of_toNat_eq (hreads.finishedLen.trans hreads.len.symm)

/-- Then it looks for a record. -/
theorem Served.exec_pop_counted {s : RingThreads ι × List (Fifo.Event (List UInt8))} {is : List ι} {rem : Marker 64} (h : Served data s)
    (hcounted : s.1.removal = .counted rem) (hnow : rem.finishedLen = rem.len)
    (his : Runs.Along (Runs.logged (RingThreads.step data)) (Within data) s (is.map .push ++ [.pop])) :
    ∃ s', Runs.exec (Runs.logged (RingThreads.step data)) s (is.map .push ++ [.pop]) = .ok s' ∧ Served data s' ∧
      (s'.1.removal = .turnedAway ∨ s'.1.removal = .reading rem) ∧ s'.1.guards = s.1.guards ∧ Fifo.taken s'.2 = Fifo.taken s.2 := by
  obtain ⟨s₁, hs₁, ⟨a, dropped, held, pending, live, hq⟩, hremoval, hguards, htaken⟩ := h.exec_pushes his.prefix
  have hrun : ∀ s', Runs.logged (RingThreads.step data) s₁ .pop = .ok s' →
      Runs.exec (Runs.logged (RingThreads.step data)) s (is.map .push ++ [.pop]) = .ok s' := by
    intro s' hs'
    refine Runs.exec_append.mpr ⟨s₁, hs₁, ?_⟩
    rw [Runs.exec_cons_ok hs', Runs.exec_nil]
  rcases hq.pop_counted (hremoval.trans hcounted) with ⟨-, t, hstep, hq', hback, -, hguards'⟩ | ⟨hwait, -⟩ | ⟨-, t, hstep, hq', hread, -, hguards'⟩
  · refine ⟨_, hrun _ (Runs.logged_eq_ok.mpr ⟨_, hstep, rfl⟩), ⟨_, _, _, _, _, hq'⟩, Or.inl hback, hguards'.trans hguards, ?_⟩
    rw [Fifo.taken_append, htaken]
    exact List.append_nil _
  · exact absurd hnow hwait
  · refine ⟨_, hrun _ (Runs.logged_eq_ok.mpr ⟨_, hstep, rfl⟩), ⟨a, _, _, _, _, by rwa [List.append_nil]⟩, Or.inr hread,
      hguards'.trans hguards, ?_⟩
    rw [List.append_nil, htaken]

/-- Then it takes the pop back, or makes a guard. -/
theorem Served.exec_pop_last {s : RingThreads ι × List (Fifo.Event (List UInt8))} {is : List ι} {rem : Marker 64} (h : Served data s)
    (hlast : s.1.removal = .turnedAway ∨ s.1.removal = .reading rem) (hguards : s.1.guards = [])
    (his : Runs.Along (Runs.logged (RingThreads.step data)) (Within data) s (is.map .push ++ [.pop])) :
    ∃ s', Runs.exec (Runs.logged (RingThreads.step data)) s (is.map .push ++ [.pop]) = .ok s' ∧ s'.1.removal = .idle ∧
      (s'.1.guards = [] ∧ Fifo.taken s'.2 = Fifo.taken s.2 ∨
        ∃ g i, s'.1.guards = [g] ∧ s'.1.ring.asRef g = .ok (data i) ∧ Fifo.taken s'.2 = Fifo.taken s.2 ++ [data i]) := by
  obtain ⟨s₁, hs₁, ⟨a, dropped, held, pending, live, hq⟩, hremoval, hguards₁, htaken⟩ := h.exec_pushes his.prefix
  have hrun : ∀ s', Runs.logged (RingThreads.step data) s₁ .pop = .ok s' →
      Runs.exec (Runs.logged (RingThreads.step data)) s (is.map .push ++ [.pop]) = .ok s' := by
    intro s' hs'
    refine Runs.exec_append.mpr ⟨s₁, hs₁, ?_⟩
    rw [Runs.exec_cons_ok hs', Runs.exec_nil]
  rw [hguards] at hguards₁
  rcases hlast with hback | hread
  · obtain ⟨t, hstep, -, hidle, -, hguards'⟩ := hq.pop_turnedAway (hremoval.trans hback)
    refine ⟨_, hrun _ (Runs.logged_eq_ok.mpr ⟨_, hstep, rfl⟩), hidle, Or.inl ⟨hguards'.trans hguards₁, ?_⟩⟩
    rw [List.append_nil, htaken]
  · obtain ⟨i, rest, t, -, -, hstep, -, hidle, -, g, hguards', hasRef⟩ := hq.pop_reading (hremoval.trans hread)
    refine ⟨_, hrun _ (Runs.logged_eq_ok.mpr ⟨_, hstep, rfl⟩), hidle, Or.inr ⟨g, i, hguards', hasRef, ?_⟩⟩
    rw [Fifo.taken_append, htaken]
    rfl

/-- A run within these bounds can be made. -/
theorem Served.exec {s : RingThreads ι × List (Fifo.Event (List UInt8))} {moves : List (RingMove ι)} (h : Served data s)
    (hmoves : Runs.Along (Runs.logged (RingThreads.step data)) (Within data) s moves) :
    ∃ s', Runs.exec (Runs.logged (RingThreads.step data)) s moves = .ok s' ∧ Served data s' :=
  Runs.progress_history (fun _ => Served data) h (fun _ _ _ _ hq hm => hq.step hm) hmoves

end RingThreads

end MiriWeirdness
