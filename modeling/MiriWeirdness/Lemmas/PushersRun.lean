import MiriWeirdness.Lemmas.Pushers
import MiriWeirdness.Library.Runs
import Mathlib.Data.Fintype.Basic
import Mathlib.Data.List.Pairwise

/-!
# Schedules of concurrent pushes

What a step of any call does to the lists of published and outstanding calls, and from it what a schedule keeps.
-/

namespace MiriWeirdness.Pushers

open Buffer (Bytes slice)

variable {ι : Type} {data : ι → List UInt8}

/-- A call that reserves overflows neither the byte count nor the count of reservations. -/
def NoOverflow (data : ι → List UInt8) (s : Pushers ι × List ι) (i : ι) : Prop :=
  s.1.stage i = .idle →
    (Marker.mk s.1.ring.marker).head.toNat + (headerSize + (data i).length) < 2 ^ 32 ∧
      (Marker.mk s.1.ring.marker).len.toNat + 1 < 2 ^ 16

instance (data : ι → List UInt8) (s : Pushers ι × List ι) (i : ι) : Decidable (NoOverflow data s i) :=
  inferInstanceAs (Decidable (s.1.stage i = .idle → _ ∧ _))

/-- The invariant of a state with the calls that were published to reach it. -/
def Queued (data : ι → List UInt8) (s : Pushers ι × List ι) (live : List ι) : Prop :=
  Queueing data s.1.ring.toMarkers s.1.ring.buf s.1.ring.cap s.1.stage s.1.marker s.2 live

/-- No call has touched a fresh ring. -/
theorem start_queued {cap : ℕ} {mem : Bytes} {r : BBRing} (hr : BBRing.new cap (some mem) = .ok r) : Queued data (start r, []) [] := by
  unfold BBRing.new at hr
  by_cases hcap : cap ≥ (2 ^ 16 - 1) / 2 - 1
  · rw [if_pos hcap] at hr
    cases hr
  · rw [if_neg hcap] at hr
    cases hr
    refine ⟨?_, Nat.two_pow_pos 32, Nat.two_pow_pos 16, List.nodup_nil, fun _ => iff_of_false List.not_mem_nil (by simp [start]),
      fun _ => iff_of_false List.not_mem_nil (by simp [start, Stage.outstanding]), trivial, trivial, trivial, stored_nil mem,
      Nat.zero_le cap, fun _ hi => by simp [start, Stage.admitted] at hi, fun _ hi => by simp [start] at hi, Nat.lt_of_not_le hcap⟩
    simp [start, Markers.counting, Marker.word, Packed.pack]

/-- A call that has passed the capacity check is published or outstanding. -/
theorem Queued.mem_of_admitted {s : Pushers ι × List ι} {live : List ι} {i : ι} (h : Queued data s live)
    (hi : (s.1.stage i).admitted = true) : i ∈ s.2 ++ live := by
  rw [List.mem_append, h.published, h.outstanding]
  cases hst : s.1.stage i with
  | published => exact Or.inl rfl
  | accepted | headed | written | ready => exact Or.inr rfl
  | idle | reserved | rejected | rolledBack =>
    rw [hst] at hi
    cases hi

variable [DecidableEq ι]

/-- What a step does to the calls with a place in the queue: it puts the call at the end, with the marker that it finds, or it keeps all
markers and takes the call out or leaves it. -/
inductive Moves (i : ι) (s s' : Pushers ι × List ι) (live live' : List ι) : Prop where
  | reserve (hi : s.1.stage i = .idle) (hq : s'.2 ++ live' = s.2 ++ live ++ [i])
      (hm : s'.1.marker = Function.update s.1.marker i ⟨s.1.ring.marker⟩)
  | keep (hq : (s'.2 ++ live').Sublist (s.2 ++ live)) (hm : s'.1.marker = s.1.marker)

variable {s : Pushers ι × List ι} {live : List ι} {i : ι}

/-- A step that publishes nothing. -/
theorem logged_of_quiet {s' : Pushers ι} (h : step data s.1 i = .ok (s', [])) : Runs.logged (step data) s i = .ok (s', s.2) := by
  simp only [Runs.logged, h, Except.map, List.append_nil]

/-- A step that publishes nothing and keeps the markers. -/
theorem exists_of_quiet {live' : List ι} {s' : Pushers ι} (hs : step data s.1 i = .ok (s', [])) (hq : Queued data (s', s.2) live')
    (hsub : live'.Sublist live) (hm : s'.marker = s.1.marker) :
    ∃ s' live', Runs.logged (step data) s i = .ok s' ∧ Queued data s' live' ∧ Moves i s s' live live' :=
  ⟨(s', s.2), live', logged_of_quiet hs, hq, .keep (hsub.append_left s.2) hm⟩

/-- Every step can be taken and keeps the invariant. -/
theorem Queued.step (h : Queued data s live) (hno : NoOverflow data s i) :
    ∃ s' live', Runs.logged (step data) s i = .ok s' ∧ Queued data s' live' ∧ Moves i s s' live live' := by
  obtain ⟨⟨⟨ms, buf, cap⟩, stage, marker⟩, pubs⟩ := s
  have hq : Queueing data ms buf cap stage marker pubs live := h
  cases hi : stage i with
  | idle =>
    obtain ⟨hb, hl⟩ := hno hi
    refine ⟨(⟨⟨(ms.reserve (data i).length).2, buf, cap⟩, Function.update stage i .reserved, Function.update marker i ⟨ms.marker⟩⟩,
      pubs ++ []), live ++ [i], ?_, ?_, .reserve hi ?_ rfl⟩
    · simp only [Runs.logged, Pushers.step, hi]
      rfl
    · rw [List.append_nil]
      exact hq.reserve hi hb hl
    · simp
  | reserved =>
    obtain ⟨full, hfull, hq'⟩ := hq.check hi
    refine @exists_of_quiet _ _ _ _ _ _ _ ⟨⟨ms, buf, cap⟩, Function.update stage i (if full then .rejected else .accepted), marker⟩ ?_ hq'
      (List.Sublist.refl live) rfl
    simp only [Pushers.step, hi, hfull, ok_bind]
  | rejected =>
    obtain ⟨before, after, rfl, hq'⟩ := hq.rollback hi
    refine @exists_of_quiet _ _ _ _ _ _ _ ⟨⟨ms.rollback (data i).length, buf, cap⟩, Function.update stage i .rolledBack, marker⟩ ?_ hq'
      (List.Sublist.append_left (List.sublist_cons_self i after) before) rfl
    simp only [Pushers.step, hi]
  | accepted =>
    obtain ⟨hin, hq'⟩ := hq.writeHeader hi
    refine @exists_of_quiet _ _ _ _ _ _ _ ⟨⟨ms, Buffer.write buf (places marker i) (halfBytes (data i).length), cap⟩,
      Function.update stage i .headed, marker⟩ ?_ hq' (List.Sublist.refl live) rfl
    unfold places at hin
    simp only [places, Pushers.step, hi, BBRing.writeHeader, BBRing.write, halfBytes_length, hin, if_true, ok_bind]
  | headed =>
    obtain ⟨hin, hq'⟩ := hq.writePayload hi
    refine @exists_of_quiet _ _ _ _ _ _ _ ⟨⟨ms, Buffer.write buf (places marker i + headerSize) (data i), cap⟩,
      Function.update stage i .written, marker⟩ ?_ hq' (List.Sublist.refl live) rfl
    unfold places at hin
    simp only [places, Pushers.step, hi, BBRing.writePayload, BBRing.write, hin, if_true, ok_bind]
  | written =>
    by_cases hturn : ms.isTurn (marker i) = true
    · refine @exists_of_quiet _ _ _ _ _ _ _ ⟨⟨ms, buf, cap⟩, Function.update stage i .ready, marker⟩ ?_ (hq.wait hi hturn)
        (List.Sublist.refl live) rfl
      simp only [Pushers.step, hi, hturn, if_true]
    · -- the call goes on waiting
      refine exists_of_quiet ?_ h (List.Sublist.refl live) rfl
      simp only [Pushers.step, hi, hturn]
      rfl
  | ready =>
    obtain ⟨rest, rfl, hq'⟩ := hq.publish hi
    refine ⟨(⟨⟨ms.publish, buf, cap⟩, Function.update stage i .published, marker⟩, pubs ++ [i]), rest, ?_, hq', .keep ?_ rfl⟩
    · simp only [Runs.logged, Pushers.step, hi, Except.map]
    · simp
  | published | rolledBack =>
    refine exists_of_quiet ?_ h (List.Sublist.refl live) rfl
    simp only [Pushers.step, hi]

/-! ## Schedules -/

/-- A schedule that overflows nothing can be run, and keeps the invariant. -/
theorem Queued.exec {is : List ι} (h : Queued data s live) (his : Runs.Along (Runs.logged (Pushers.step data)) (NoOverflow data) s is) :
    ∃ s', Runs.exec (Runs.logged (Pushers.step data)) s is = .ok s' ∧ ∃ live', Queued data s' live' :=
  Runs.progress_history (fun _ s => ∃ live, Queued data s live) ⟨live, h⟩
    (fun _ _ _ _ ⟨_, hq⟩ hno =>
      have ⟨s', live', hs, hq', _⟩ := hq.step hno
      ⟨s', hs, live', hq'⟩) his

/-- A call that is published stays so, and keeps its place in the order. -/
theorem published_prefix {is : List ι} {s' : Pushers ι × List ι} (hs : Runs.exec (Runs.logged (step data)) s is = .ok s') : s.2 <+: s'.2 := by
  induction is generalizing s with
  | nil =>
    cases hs
    exact List.prefix_refl _
  | cons i is ih =>
    obtain ⟨s₁, h₁, h₂⟩ := Runs.exec_cons_eq_ok.mp hs
    obtain ⟨x, -, rfl⟩ := Runs.logged_eq_ok.mp h₁
    exact (List.prefix_append _ _).trans (ih h₂)

/-! ## Schedules in which nobody reserves below another -/

/-- A call that reserves overflows nothing and finds no outstanding call with a ticket as high as the next one. -/
def Settled (data : ι → List UInt8) (s : Pushers ι × List ι) (i : ι) : Prop :=
  NoOverflow data s i ∧
    (s.1.stage i = .idle → ∀ k, (s.1.stage k).outstanding = true → (s.1.marker k).len.toNat < (Marker.mk s.1.ring.marker).len.toNat)

instance [Fintype ι] (data : ι → List UInt8) (s : Pushers ι × List ι) (i : ι) : Decidable (Settled data s i) :=
  inferInstanceAs (Decidable (NoOverflow data s i ∧ (s.1.stage i = .idle → ∀ k, (s.1.stage k).outstanding = true → _ < _)))

/-- The ticket of the one call is before that of the other, and its record ends before that of the other starts. -/
def Before (data : ι → List UInt8) (marker : ι → Marker 64) (j i : ι) : Prop :=
  tickets marker j < tickets marker i ∧ places marker j + recordSize data j ≤ places marker i

/-- The tickets and the places of the calls in the queue grow. -/
def Apart (data : ι → List UInt8) (marker : ι → Marker 64) (is : List ι) : Prop := is.Pairwise (Before data marker)

omit [DecidableEq ι] in
/-- Of two calls that are apart, one comes first. -/
theorem Apart.before_or_before {marker : ι → Marker 64} {is : List ι} {j : ι} (h : Apart data marker is) (hi : i ∈ is) (hj : j ∈ is)
    (hij : i ≠ j) : Before data marker i j ∨ Before data marker j i := by
  have : Std.Symm fun i j => Before data marker i j ∨ Before data marker j i := ⟨fun _ _ => Or.symm⟩
  exact List.Pairwise.forall (R := fun i j => Before data marker i j ∨ Before data marker j i) (h.imp fun h => Or.inl h) hi hj hij

/-- A step keeps the calls apart. -/
theorem Queued.step_apart (h : Queued data s live) (hapart : Apart data s.1.marker (s.2 ++ live)) (hset : Settled data s i) :
    ∃ s', Runs.logged (Pushers.step data) s i = .ok s' ∧ ∃ live', Queued data s' live' ∧ Apart data s'.1.marker (s'.2 ++ live') := by
  obtain ⟨s', live', hs, hq', hmoves⟩ := h.step hset.1
  refine ⟨s', hs, live', hq', ?_⟩
  cases hmoves with
  | keep hq hm =>
    rw [hm]
    exact List.Pairwise.sublist hq hapart
  | reserve hi hq hm =>
    -- with no ticket too high, the outstanding calls follow each other and those published
    have hlt : ∀ k ∈ live, tickets s.1.marker k < s.2.length + live.length := by
      intro k hk
      have := hset.2 hi k ((h.outstanding k).mp hk)
      rwa [h.len, List.length_append] at this
    have hlive := h.reserved.placed ((List.pairwise_append.mp hapart).2.1.imp And.left) hlt
    have hplaced : Reservations.Placed (tickets s.1.marker) (places s.1.marker) (recordSize data) 0 0 (s.2 ++ live) :=
      Reservations.placed_append.mpr ⟨h.placed, by rwa [Nat.zero_add, Nat.zero_add]⟩
    have hnew := h.not_mem_of_idle hi
    have hold : ∀ k ∈ s.2 ++ live, s'.1.marker k = s.1.marker k := by
      intro k hk
      rw [hm, Function.update_of_ne]
      rintro rfl
      rcases List.mem_append.mp hk with hk | hk
      · exact hnew.1 hk
      · exact hnew.2 hk
    have hself : s'.1.marker i = ⟨s.1.ring.marker⟩ := by rw [hm, Function.update_self]
    rw [hq]
    refine List.pairwise_append.mpr ⟨?_, List.pairwise_singleton _ _, ?_⟩
    · refine List.Pairwise.imp_of_mem ?_ hapart
      intro j k hj hk hjk
      rw [Before, tickets, tickets, places, places, hold j hj, hold k hk]
      exact hjk
    · intro k hk j hj
      rw [List.mem_singleton.mp hj]
      have hlast := hplaced.lt hk
      rw [Nat.zero_add, Nat.zero_add, tickets, places] at hlast
      rw [Before, tickets, tickets, places, places, hold k hk, hself, h.len, h.head]
      exact hlast

/-- A schedule of settled reservations keeps the calls apart. -/
theorem exec_apart {cap : ℕ} {mem : Bytes} {r : BBRing} (hr : BBRing.new cap (some mem) = .ok r) {is : List ι}
    (his : Runs.Along (Runs.logged (step data)) (Settled data) (start r, []) is) :
    ∃ s, Runs.exec (Runs.logged (step data)) (start r, []) is = .ok s ∧
      ∃ live, Queued data s live ∧ Apart data s.1.marker (s.2 ++ live) :=
  Runs.progress_history (fun _ s => ∃ live, Queued data s live ∧ Apart data s.1.marker (s.2 ++ live))
    ⟨[], start_queued hr, List.Pairwise.nil⟩ (fun _ _ _ _ ⟨_, hq, hapart⟩ hset => hq.step_apart hapart hset) his

/-! ## A call that runs alone -/

section

variable {r₁ r₂ r₃ r' : BBRing} {stage : ι → Stage} {marker : ι → Marker 64} {pubs : List ι}

/-- What is left of a call that was rejected. -/
theorem exec_rejected (hr : { r₁ with toMarkers := r₁.rollback (data i).length } = r') :
    Runs.exec (Runs.logged (step data)) (⟨r₁, Function.update stage i .rejected, marker⟩, pubs) [i, i, i, i] =
      .ok (⟨r', Function.update stage i .rolledBack, marker⟩, pubs) := by
  have hback : Runs.logged (step data) (⟨r₁, Function.update stage i .rejected, marker⟩, pubs) i =
      .ok (⟨r', Function.update stage i .rolledBack, marker⟩, pubs) := by
    rw [← hr]
    refine logged_of_quiet ?_
    simp only [step, Function.update_self, Function.update_idem]
  have hrest : Runs.logged (step data) (⟨r', Function.update stage i .rolledBack, marker⟩, pubs) i =
      .ok (⟨r', Function.update stage i .rolledBack, marker⟩, pubs) := by
    refine logged_of_quiet ?_
    simp only [step, Function.update_self]
  rw [Runs.exec_cons_ok hback, Runs.exec_cons_ok hrest, Runs.exec_cons_ok hrest, Runs.exec_cons_ok hrest, Runs.exec_nil]

/-- What is left of a call that was accepted, and does not have to wait. -/
theorem exec_accepted (hheader : r₁.writeHeader (marker i) (data i) = .ok r₂) (hpayload : r₂.writePayload (marker i) (data i) = .ok r₃)
    (hturn : r₃.isTurn (marker i) = true) (hr : { r₃ with toMarkers := r₃.publish } = r') :
    Runs.exec (Runs.logged (step data)) (⟨r₁, Function.update stage i .accepted, marker⟩, pubs) [i, i, i, i] =
      .ok (⟨r', Function.update stage i .published, marker⟩, pubs ++ [i]) := by
  have hhead : Runs.logged (step data) (⟨r₁, Function.update stage i .accepted, marker⟩, pubs) i =
      .ok (⟨r₂, Function.update stage i .headed, marker⟩, pubs) := by
    refine logged_of_quiet ?_
    simp only [step, Function.update_self, hheader, ok_bind, Function.update_idem]
  have hwrite : Runs.logged (step data) (⟨r₂, Function.update stage i .headed, marker⟩, pubs) i =
      .ok (⟨r₃, Function.update stage i .written, marker⟩, pubs) := by
    refine logged_of_quiet ?_
    simp only [step, Function.update_self, hpayload, ok_bind, Function.update_idem]
  have hwait : Runs.logged (step data) (⟨r₃, Function.update stage i .written, marker⟩, pubs) i =
      .ok (⟨r₃, Function.update stage i .ready, marker⟩, pubs) := by
    refine logged_of_quiet ?_
    simp only [step, Function.update_self, hturn, if_true, Function.update_idem]
  have hpublish : Runs.logged (step data) (⟨r₃, Function.update stage i .ready, marker⟩, pubs) i =
      .ok (⟨r', Function.update stage i .published, marker⟩, pubs ++ [i]) := by
    rw [← hr]
    simp only [Runs.logged, step, Function.update_self, Function.update_idem, Except.map]
  rw [Runs.exec_cons_ok hhead, Runs.exec_cons_ok hwrite, Runs.exec_cons_ok hwait, Runs.exec_cons_ok hpublish, Runs.exec_nil]

end

end MiriWeirdness.Pushers
