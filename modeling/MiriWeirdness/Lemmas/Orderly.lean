import MiriWeirdness.Lemmas.Stranded
import Mathlib.Algebra.Order.BigOperators.Group.List

/-!
# Rollbacks in the opposite order of the reservations

When a call takes its reservation back only while it is the last to have reserved, the counters never fall below a reservation that is
still outstanding. The calls then stand in a line, with the tickets and the places of their order, and those that the capacity check
turns away are at its end.
-/

namespace MiriWeirdness.Pushers

open Reservations (Placed Reserved)

variable {ι : Type} {data : ι → List UInt8}

/-- A call overflows no counter, and takes its reservation back only if it has the last ticket that was handed out. -/
def Orderly (data : ι → List UInt8) (s : Pushers ι × List ι) (i : ι) : Prop :=
  NoOverflow data s i ∧ (s.1.stage i = .rejected → (s.1.marker i).len.toNat + 1 = (Marker.mk s.1.ring.marker).len.toNat)

instance (data : ι → List UInt8) (s : Pushers ι × List ι) (i : ι) : Decidable (Orderly data s i) :=
  inferInstanceAs (Decidable (NoOverflow data s i ∧ (s.1.stage i = .rejected → _)))

/-- The calls stand in a line: published and outstanding ones have the tickets and the places of their order, and a call is rejected
only if its record would not end inside of the buffer. -/
structure Lined (data : ι → List UInt8) (s : Pushers ι × List ι) (live : List ι) : Prop where
  queued : Queued data s live
  placed : Placed (tickets s.1.marker) (places s.1.marker) (recordSize data) 0 0 (s.2 ++ live)
  rejected : ∀ i, s.1.stage i = .rejected → s.1.ring.cap ≤ places s.1.marker i + recordSize data i

/-- No call has touched a fresh ring. -/
theorem start_lined {cap : ℕ} {mem : Buffer.Bytes} {r : BBRing} (hr : BBRing.new cap (some mem) = .ok r) :
    Lined data (start r, []) [] :=
  ⟨start_queued hr, trivial, nofun⟩

/-! ## Steps -/

/-- The calls in the queue are those published or outstanding. -/
theorem Queued.mem_iff {s : Pushers ι × List ι} {live : List ι} {k : ι} (h : Queued data s live) :
    k ∈ s.2 ++ live ↔ s.1.stage k = .published ∨ (s.1.stage k).outstanding = true := by
  rw [List.mem_append, h.published, h.outstanding]

/-- A queue that has lost no call is what it was. -/
theorem Queued.eq_of_sublist {s : Pushers ι × List ι} {live is : List ι} (h : Queued data s live) (hsub : (s.2 ++ live).Sublist is)
    (hnodup : is.Nodup) (hmem : ∀ k ∈ is, s.1.stage k = .published ∨ (s.1.stage k).outstanding = true) : s.2 ++ live = is :=
  hsub.eq_of_length_le (List.subperm_of_subset hnodup fun k hk => h.mem_iff.mpr (hmem k hk)).length_le

variable [DecidableEq ι]

/-- What the capacity check says of a call. -/
theorem Queued.step_check {s s' : Pushers ι × List ι} {live : List ι} {i : ι} (h : Queued data s live) (hi : s.1.stage i = .reserved)
    (hs : Runs.logged (Pushers.step data) s i = .ok s') :
    s'.1.stage = Function.update s.1.stage i (if s.1.ring.cap ≤ places s.1.marker i + recordSize data i then .rejected else .accepted) := by
  obtain ⟨x, hx, rfl⟩ := Runs.logged_eq_ok.mp hs
  simp only [Pushers.step, hi] at hx
  rw [@Markers.full_eq _ 0 (data i).length s.1.ring.cap s.1.ring.toMarkers (s.1.marker i) rfl h.remHead (Nat.zero_le _), ok_bind] at hx
  obtain rfl := Except.ok.inj hx
  refine congrArg (Function.update s.1.stage i) (if_congr ?_ rfl rfl)
  rw [decide_eq_true_iff, places, recordSize]
  omega

omit [DecidableEq ι] in
/-- A published or outstanding call goes to a stage at which it is published or outstanding, unless it is rejected. -/
theorem queued_successors {st : Stage} (hst : st ≠ .rejected) (h : st = .published ∨ st.outstanding = true) :
    ∀ st' ∈ successors st, st' = .published ∨ st'.outstanding = true := by
  revert hst h
  cases st <;> decide

/-- Published and outstanding calls stay in the queue, except one that takes its reservation back. -/
theorem queued_of_step {s s' : Pushers ι} {i k : ι} {es : List ι} (h : step data s i = .ok (s', es)) (hki : k = i → s.stage i ≠ .rejected)
    (hk : s.stage k = .published ∨ (s.stage k).outstanding = true) : s'.stage k = .published ∨ (s'.stage k).outstanding = true := by
  obtain ⟨-, st, hst, heq⟩ := stage_of_step h
  rw [heq]
  by_cases hkeq : k = i
  · subst hkeq
    rw [Function.update_self]
    exact queued_successors (hki rfl) hk st hst
  · rw [Function.update_of_ne hkeq]
    exact hk

omit [DecidableEq ι] in
/-- A call that takes its reservation back when it has the last ticket is the last in the queue. -/
theorem Lined.last {s : Pushers ι × List ι} {live : List ι} {i : ι} (h : Lined data s live) (hi : s.1.stage i = .rejected)
    (hlast : (s.1.marker i).len.toNat + 1 = (Marker.mk s.1.ring.marker).len.toNat) : ∃ is, s.2 ++ live = is ++ [i] := by
  have hmem : i ∈ s.2 ++ live := h.queued.mem_iff.mpr (Or.inr (by rw [hi]; rfl))
  obtain ⟨before, after, heq⟩ := List.append_of_mem hmem
  have hplaced := h.placed
  rw [heq] at hplaced
  have hticket := (Reservations.placed_append.mp hplaced).2.1
  rw [h.queued.len, heq, List.length_append, List.length_cons] at hlast
  rw [tickets] at hticket
  obtain rfl : after = [] := List.eq_nil_of_length_eq_zero (by omega)
  exact ⟨before, heq⟩

/-- An orderly step keeps the line. -/
theorem Lined.step {s : Pushers ι × List ι} {live : List ι} {i : ι} (h : Lined data s live) (hi : Orderly data s i) :
    ∃ s' live', Runs.logged (Pushers.step data) s i = .ok s' ∧ Lined data s' live' ∧ Moves i s s' live live' := by
  obtain ⟨s', live', hs, hq', hmoves⟩ := h.queued.step hi.1
  refine ⟨s', live', hs, ⟨hq', ?_, ?_⟩, hmoves⟩
  · obtain ⟨x, hx, rfl⟩ := Runs.logged_eq_ok.mp hs
    cases hmoves with
    | reserve hidle hq hm =>
      have hnew := h.queued.not_mem_of_idle hidle
      have hne : ∀ k ∈ s.2 ++ live, k ≠ i := by
        rintro k hk rfl
        exact (List.mem_append.mp hk).elim hnew.1 hnew.2
      rw [hq, hm]
      refine Reservations.placed_append.mpr ⟨h.placed.congr (fun k hk => tickets_update (hne k hk)) fun k hk => places_update (hne k hk),
        ?_, ?_, trivial⟩
      · rw [tickets, Function.update_self, h.queued.len, Nat.zero_add]
      · rw [places, Function.update_self, h.queued.head, Nat.zero_add]
    | keep hq hm =>
      rw [hm]
      by_cases hrejected : s.1.stage i = .rejected
      · obtain ⟨is, his⟩ := h.last hrejected (hi.2 hrejected)
        have hplaced := h.placed
        have hnodup := h.queued.nodup
        rw [his] at hplaced hnodup hq
        have hnot : i ∉ is := fun hmem => (List.nodup_append.mp hnodup).2.2 i hmem i (List.mem_singleton_self i) rfl
        have hsub : (s.2 ++ x.2 ++ live').Sublist is := by
          obtain ⟨js, last, heq, hjs, hlast⟩ := List.sublist_append_iff.mp hq
          have hgone : i ∉ s.2 ++ x.2 ++ live' := by
            obtain ⟨-, st, hst, heq⟩ := stage_of_step hx
            rw [hrejected] at hst
            rw [hq'.mem_iff, heq, Function.update_self, List.mem_singleton.mp hst]
            decide
          have hnil : last = [] := by
            refine (List.sublist_singleton.mp hlast).resolve_right fun hlast => hgone ?_
            rw [heq, hlast]
            exact List.mem_append_right _ (List.mem_singleton_self i)
          rw [heq, hnil, List.append_nil]
          exact hjs
        have hmem : ∀ k ∈ is, x.1.stage k = .published ∨ (x.1.stage k).outstanding = true := by
          intro k hk
          refine queued_of_step hx (fun hki => absurd (hki ▸ hk) hnot) (h.queued.mem_iff.mp ?_)
          rw [his]
          exact List.mem_append_left _ hk
        rw [hq'.eq_of_sublist hsub (List.nodup_append.mp hnodup).1 hmem]
        exact (Reservations.placed_append.mp hplaced).1
      · rw [hq'.eq_of_sublist hq h.queued.nodup fun k hk => queued_of_step hx (fun _ => hrejected) (h.queued.mem_iff.mp hk)]
        exact h.placed
  · intro k hk
    obtain ⟨x, hx, rfl⟩ := Runs.logged_eq_ok.mp hs
    obtain ⟨hcap, st, hst, heq⟩ := stage_of_step hx
    rw [hcap]
    rw [heq] at hk
    by_cases hki : k = i
    · subst hki
      rw [Function.update_self] at hk
      have hreserved : s.1.stage k = .reserved := by
        rw [hk] at hst
        revert hst
        cases s.1.stage k <;> decide
      have hcheck := h.queued.step_check hreserved hs
      cases hmoves with
      | reserve hidle _ _ =>
        rw [hreserved] at hidle
        cases hidle
      | keep _ hm =>
        rw [hm]
        by_contra hfits
        rw [if_neg hfits, heq, hk] at hcheck
        have := congrFun hcheck k
        rw [Function.update_self, Function.update_self] at this
        cases this
    · rw [Function.update_of_ne hki] at hk
      have hplace : places x.1.marker k = places s.1.marker k := by
        cases hmoves with
        | reserve _ _ hm => rw [hm, places_update hki]
        | keep _ hm => rw [hm]
      rw [hplace]
      exact h.rejected k hk

/-! ## The calls that are outstanding can finish -/

/-- The number of steps that a call has still to take, at most, not counting those in which it waits. -/
def rank : Stage → ℕ
  | .reserved => 5
  | .accepted => 4
  | .headed => 3
  | .written => 2
  | .ready | .rejected => 1
  | .idle | .published | .rolledBack => 0

omit [DecidableEq ι] in
/-- An outstanding call gets nearer to its end, unless it waits. -/
theorem rank_lt_of_successors {st : Stage} (hst : st.outstanding = true) :
    ∀ st' ∈ successors st, st ≠ .written ∨ st' ≠ .written → rank st' < rank st := by
  revert hst
  cases st <;> decide

/-- What the calls in the queue have still to do. -/
def workLeft (s : Pushers ι × List ι) (live : List ι) : ℕ := ((s.2 ++ live).map fun k => rank (s.1.stage k)).sum

/-- The step of a call that gets nearer to its end. -/
theorem workLeft_lt {s s' : Pushers ι × List ι} {live live' : List ι} {i : ι} {st : Stage} (hi : i ∈ s.2 ++ live)
    (hq : (s'.2 ++ live').Sublist (s.2 ++ live)) (hst : s'.1.stage = Function.update s.1.stage i st)
    (hrank : rank st < rank (s.1.stage i)) : workLeft s' live' < workLeft s live := by
  have hle : ∀ k ∈ s.2 ++ live, rank (s'.1.stage k) ≤ rank (s.1.stage k) := by
    intro k _
    rw [hst]
    by_cases hki : k = i
    · rw [hki, Function.update_self]
      exact Nat.le_of_lt hrank
    · rw [Function.update_of_ne hki]
  calc workLeft s' live'
    _ ≤ ((s.2 ++ live).map fun k => rank (s'.1.stage k)).sum := (hq.map _).sum_le_sum fun _ _ => Nat.zero_le _
    _ < workLeft s live := List.sum_lt_sum _ _ hle ⟨i, hi, by rw [hst, Function.update_self]; exact hrank⟩

omit [DecidableEq ι] in
/-- As long as a call is outstanding, one can take an orderly step that gets it nearer to its end: the first, or, if that is rejected,
the last, which is rejected as well or will be. -/
theorem Lined.exists_step {s : Pushers ι × List ι} {live : List ι} (h : Lined data s live) (hlive : live ≠ []) :
    ∃ i, (s.1.stage i).outstanding = true ∧ Orderly data s i ∧
      (s.1.stage i = .written → s.1.ring.isTurn (s.1.marker i) = true) := by
  obtain ⟨a, rest, rfl⟩ := List.exists_cons_of_ne_nil hlive
  have hout : ∀ k ∈ a :: rest, (s.1.stage k).outstanding = true := fun k hk => (h.queued.outstanding k).mp hk
  have hno : ∀ k ∈ a :: rest, NoOverflow data s k := by
    intro k hk hidle
    have := hout k hk
    rw [hidle] at this
    cases this
  obtain ⟨hticket, hplace, -⟩ := (Reservations.placed_append.mp h.placed).2
  rw [Nat.zero_add] at hticket hplace
  by_cases hrejected : s.1.stage a = .rejected
  · -- the record of the last ends behind that of the first
    obtain ⟨before, z, hz⟩ := (List.eq_nil_or_concat (a :: rest)).resolve_left hlive
    rw [List.concat_eq_append] at hz
    have hmem : z ∈ a :: rest := by
      rw [hz]
      exact List.mem_append_right _ (List.mem_singleton_self z)
    have hend : s.1.ring.cap ≤ places s.1.marker z + recordSize data z := by
      have hcap := h.rejected a hrejected
      rcases List.mem_cons.mp hmem with rfl | hrest
      · exact hcap
      · have := h.queued.reserved.2.2.2.le_start hrest
        omega
    have hnot : ¬(s.1.stage z).admitted = true := fun hadm => Nat.not_le_of_lt (h.queued.fits z hadm) hend
    refine ⟨z, hout z hmem, ⟨hno z hmem, fun _ => ?_⟩, fun hwritten => absurd (by rw [hwritten]; rfl) hnot⟩
    have hplaced := h.placed
    rw [hz, ← List.append_assoc] at hplaced
    have hticket := (Reservations.placed_append.mp hplaced).2.1
    rw [tickets] at hticket
    rw [h.queued.len, hz, ← List.append_assoc, List.length_append, List.length_singleton]
    omega
  · refine ⟨a, hout a List.mem_cons_self, ⟨hno a List.mem_cons_self, fun hrej => absurd hrej hrejected⟩, fun _ => ?_⟩
    exact (Markers.isTurn_iff h.queued.finishedLen rfl).mpr hticket.symm

/-- From a line, the outstanding calls can be brought to their end by orderly steps of their own. -/
theorem Lined.finish {s : Pushers ι × List ι} {live : List ι} (h : Lined data s live) :
    ∃ js s', Runs.Along (Runs.logged (Pushers.step data)) (Orderly data) s js ∧
      Runs.exec (Runs.logged (Pushers.step data)) s js = .ok s' ∧ (∀ i, (s'.1.stage i).outstanding = false) ∧
      (∀ i, (s.1.stage i).admitted = true → (s'.1.stage i).admitted = true) ∧ ∀ i, s.1.stage i = .idle → s'.1.stage i = .idle := by
  induction hn : workLeft s live using Nat.strong_induction_on generalizing s live with
  | _ n ih =>
    by_cases hlive : live = []
    · refine ⟨[], s, trivial, rfl, fun i => ?_, fun _ hadm => hadm, fun _ hidle => hidle⟩
      have := h.queued.outstanding i
      rw [hlive] at this
      simpa using this
    · obtain ⟨i, hi, horderly, hturn⟩ := h.exists_step hlive
      obtain ⟨s₁, live₁, hs₁, hlined, hmoves⟩ := h.step horderly
      obtain ⟨x, hx, rfl⟩ := Runs.logged_eq_ok.mp hs₁
      obtain ⟨-, st, hst, heq⟩ := stage_of_step hx
      have hmem : i ∈ s.2 ++ live := h.queued.mem_iff.mpr (Or.inr hi)
      have hwork : workLeft (x.1, s.2 ++ x.2) live₁ < workLeft s live := by
        cases hmoves with
        | reserve hidle _ _ =>
          rw [hidle] at hi
          cases hi
        | keep hq _ =>
          refine workLeft_lt hmem hq heq (rank_lt_of_successors hi st hst ?_)
          by_cases hwritten : s.1.stage i = .written
          · simp only [Pushers.step, hwritten, if_pos (hturn hwritten)] at hx
            have hready := (fields_of_ok hx).2
            rw [heq] at hready
            have := congrFun hready i
            rw [Function.update_self, Function.update_self] at this
            exact Or.inr (by rw [this]; decide)
          · exact Or.inl hwritten
      obtain ⟨js, s', hjs, hs', hdone, hadm, hidle⟩ := ih _ (hn ▸ hwork) hlined rfl
      refine ⟨i :: js, s', ⟨horderly, fun s₂ hs₂ => ?_⟩, ?_, hdone, fun k hk => hadm k (admitted_of_step hx hk), fun k hk => hidle k ?_⟩
      · obtain rfl := Except.ok.inj (hs₁.symm.trans hs₂)
        exact hjs
      · rw [Runs.exec_cons_ok hs₁, hs']
      · have hki : k ≠ i := by
          rintro rfl
          rw [hk] at hi
          cases hi
        rw [heq, Function.update_of_ne hki, hk]

end MiriWeirdness.Pushers
