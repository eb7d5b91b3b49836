import MiriWeirdness.Lemmas.PushersRun

/-!
# Calls that are overtaken by a rollback

A call has in its ticket the number of calls before it in the queue of published and outstanding ones when it reserved. Each step keeps
the order of the queue and adds calls at its end only, so a call can only move forward in it. One that has moved forward by a rollback
has a ticket too high for its place, and that cannot be mended.
-/

namespace MiriWeirdness.Pushers

open Reservations (Placed Reserved)

variable {ι : Type} {data : ι → List UInt8}

/-! ## Places in a queue -/

/-- The call `i` has fewer calls before it than its ticket says. -/
def Late (ticket : ι → ℕ) (is : List ι) (i : ι) : Prop := ∃ before after, is = before ++ i :: after ∧ before.length < ticket i

/-- In a part of the queue it has not more calls before it. -/
theorem Late.sublist {ticket : ι → ℕ} {is js : List ι} {i : ι} (h : Late ticket is i) (hsub : js.Sublist is) (hnodup : is.Nodup)
    (hi : i ∈ js) : Late ticket js i := by
  obtain ⟨before, after, rfl, hlt⟩ := h
  obtain ⟨js₁, js₂, rfl, h₁, h₂⟩ := List.sublist_append_iff.mp hsub
  have hout : i ∉ before ++ after := (List.nodup_cons.mp (List.nodup_middle.mp hnodup)).1
  have hi : i ∈ js₂ := (List.mem_append.mp hi).resolve_left fun hmem => hout (List.mem_append_left _ (h₁.subset hmem))
  rcases List.sublist_cons_iff.mp h₂ with h₂ | ⟨js₂, rfl, -⟩
  · exact absurd (List.mem_append_right _ (h₂.subset hi)) hout
  · exact ⟨js₁, js₂, rfl, Nat.lt_of_le_of_lt h₁.length_le hlt⟩

/-- A call that is published has the ticket of its place. -/
theorem Late.not_mem {ticket start size : ι → ℕ} {is js : List ι} {i : ι} (h : Late ticket (is ++ js) i)
    (hplaced : Placed ticket start size 0 0 is) (hnodup : (is ++ js).Nodup) : i ∉ is := by
  intro hi
  obtain ⟨before', after', rfl⟩ := List.append_of_mem hi
  obtain ⟨before, after, heq, hlt⟩ := h
  rw [List.append_assoc, List.cons_append] at heq hnodup
  have hticket := (Reservations.placed_append.mp hplaced).2.1
  -- the call has one place in the queue
  have hat : (before' ++ i :: (after' ++ js))[before'.length]? = (before' ++ i :: (after' ++ js))[before.length]? := by
    rw [List.getElem?_append_right (Nat.le_refl _), heq, List.getElem?_append_right (Nat.le_refl _), Nat.sub_self, Nat.sub_self]
    rfl
  have hlen := (List.getElem?_inj (i := before'.length) (by simp) hnodup).mp hat
  omega

/-! ## Steps -/

/-- The stages that a call can go to from a stage. -/
def successors : Stage → List Stage
  | .idle => [.reserved]
  | .reserved => [.rejected, .accepted]
  | .rejected => [.rolledBack]
  | .accepted => [.headed]
  | .headed => [.written]
  | .written => [.written, .ready]
  | .ready => [.published]
  | .published => [.published]
  | .rolledBack => [.rolledBack]

/-- The capacity and the stages of a state that is known; its markers are not looked at. -/
theorem fields_of_ok {ms : Markers} {buf : Buffer.Bytes} {cap : ℕ} {stage : ι → Stage} {marker : ι → Marker 64} {s' : Pushers ι}
    {es es' : List ι} (h : (.ok (⟨⟨ms, buf, cap⟩, stage, marker⟩, es) : Except Fault (Pushers ι × List ι)) = .ok (s', es')) :
    s'.ring.cap = cap ∧ s'.stage = stage := by
  cases h
  exact ⟨rfl, rfl⟩

/-- What a step does to the stages: the call goes to a stage that follows its own, and the others stay where they are. -/
theorem stage_of_step [DecidableEq ι] {s s' : Pushers ι} {i : ι} {es : List ι} (h : step data s i = .ok (s', es)) :
    s'.ring.cap = s.ring.cap ∧ ∃ st ∈ successors (s.stage i), s'.stage = Function.update s.stage i st := by
  have hself : ∀ {st}, s.stage i = st → s.stage = Function.update s.stage i st := by
    intro st hst
    rw [← hst, Function.update_eq_self]
  cases hi : s.stage i with
  | idle | rejected | ready =>
    simp only [step, hi] at h
    obtain ⟨hcap, hstage⟩ := fields_of_ok h
    exact ⟨hcap, _, List.mem_singleton_self _, hstage⟩
  | published | rolledBack =>
    simp only [step, hi] at h
    obtain ⟨rfl, -⟩ := Prod.mk.inj (Except.ok.inj h)
    exact ⟨rfl, _, List.mem_singleton_self _, hself hi⟩
  | reserved =>
    simp only [step, hi] at h
    obtain ⟨full, -, hx⟩ := bind_eq_ok.mp h
    obtain ⟨hcap, hstage⟩ := fields_of_ok hx
    refine ⟨hcap, _, ?_, hstage⟩
    cases full with
    | true => decide
    | false => decide
  | accepted | headed =>
    simp only [step, hi, BBRing.writeHeader, BBRing.writePayload] at h
    obtain ⟨r, hr, hx⟩ := bind_eq_ok.mp h
    obtain ⟨-, rfl⟩ := BBRing.write_eq_ok.mp hr
    obtain ⟨hcap, hstage⟩ := fields_of_ok hx
    exact ⟨hcap, _, List.mem_singleton_self _, hstage⟩
  | written =>
    simp only [step, hi] at h
    split at h
    · obtain ⟨hcap, hstage⟩ := fields_of_ok h
      exact ⟨hcap, .ready, by decide, hstage⟩
    · obtain ⟨rfl, -⟩ := Prod.mk.inj (Except.ok.inj h)
      exact ⟨rfl, .written, by decide, hself hi⟩

/-- What the stages that follow a stage share with it, a call keeps. -/
theorem stage_induction [DecidableEq ι] {P : Stage → Prop} (hnext : ∀ st, P st → ∀ st' ∈ successors st, P st') {s s' : Pushers ι}
    {i k : ι} {es : List ι} (h : step data s i = .ok (s', es)) (hk : P (s.stage k)) : P (s'.stage k) := by
  obtain ⟨-, st, hst, heq⟩ := stage_of_step h
  rw [heq]
  by_cases hki : k = i
  · subst hki
    rw [Function.update_self]
    exact hnext _ hk st hst
  · rw [Function.update_of_ne hki]
    exact hk

/-- A call that has started does not become one that has not. -/
theorem ne_idle_of_step [DecidableEq ι] {s s' : Pushers ι} {i k : ι} {es : List ι} (h : step data s i = .ok (s', es))
    (hk : s.stage k ≠ .idle) : s'.stage k ≠ .idle := by
  refine @stage_induction _ _ _ (· ≠ .idle) (fun st _ => ?_) _ _ _ _ _ h hk
  cases st <;> decide

/-- A call that has passed the capacity check has passed it for good. -/
theorem admitted_of_step [DecidableEq ι] {s s' : Pushers ι} {i k : ι} {es : List ι} (h : step data s i = .ok (s', es))
    (hk : (s.stage k).admitted = true) : (s'.stage k).admitted = true := by
  refine @stage_induction _ _ _ (Stage.admitted · = true) (fun st => ?_) _ _ _ _ _ h hk
  cases st <;> decide

/-- A call that has passed the capacity check and is not published has still its reservation. -/
theorem outstanding_of_admitted {st : Stage} (h : st.admitted = true) (hst : st ≠ .published) : st.outstanding = true := by
  cases st with
  | accepted | headed | written | ready => rfl
  | published => exact absurd rfl hst
  | idle | reserved | rejected | rolledBack => cases h

/-- What a step does to the queue: it keeps the calls' order, and puts only a call that was idle at the end. -/
theorem Moves.order [DecidableEq ι] {s s' : Pushers ι × List ι} {i j k : ι} {live live' : List ι} (h : Moves i s s' live live')
    (hk : s.1.stage k ≠ .idle) (hjk : (s.2 ++ live).Pairwise fun x y => ¬(x = j ∧ y = k)) :
    (s'.2 ++ live').Pairwise fun x y => ¬(x = j ∧ y = k) := by
  cases h with
  | keep hq _ => exact hjk.sublist hq
  | reserve hi hq _ =>
    rw [hq]
    refine List.pairwise_append.mpr ⟨hjk, List.pairwise_singleton _ _, fun x _ y hy hxy => ?_⟩
    obtain rfl : y = i := List.mem_singleton.mp hy
    exact hk (hxy.2 ▸ hi)

/-- A call that is late stays late as long as it is in the queue. -/
theorem Moves.late [DecidableEq ι] {s s' : Pushers ι × List ι} {i k : ι} {live live' : List ι} (h : Moves i s s' live live')
    (hnodup : (s.2 ++ live).Nodup) (hk : s.1.stage k ≠ .idle) (hlate : k ∈ s.2 ++ live → Late (tickets s.1.marker) (s.2 ++ live) k) :
    k ∈ s'.2 ++ live' → Late (tickets s'.1.marker) (s'.2 ++ live') k := by
  intro hmem
  cases h with
  | keep hq hm =>
    rw [hm]
    exact (hlate (hq.subset hmem)).sublist hq hnodup hmem
  | reserve hi hq hm =>
    have hki : k ≠ i := by
      rintro rfl
      exact hk hi
    rw [hq] at hmem ⊢
    have hmem : k ∈ s.2 ++ live := (List.mem_append.mp hmem).resolve_right fun hmem => hki (List.mem_singleton.mp hmem)
    obtain ⟨before, after, heq, hlt⟩ := hlate hmem
    refine ⟨before, after ++ [i], ?_, ?_⟩
    · rw [heq, List.append_assoc, List.cons_append]
    · rw [hm, tickets_update hki]
      exact hlt

/-! ## Runs -/

variable [DecidableEq ι]

/-- What a schedule keeps of a call `k` that has started: it stays started, it stays behind those it was behind, and if it was late it
stays late. -/
theorem Queued.exec_order {s s' : Pushers ι × List ι} {live is : List ι} {j k : ι} (h : Queued data s live) (hk : s.1.stage k ≠ .idle)
    (hjk : (s.2 ++ live).Pairwise fun x y => ¬(x = j ∧ y = k))
    (his : Runs.Along (Runs.logged (Pushers.step data)) (NoOverflow data) s is)
    (hs : Runs.exec (Runs.logged (Pushers.step data)) s is = .ok s') :
    ∃ live', Queued data s' live' ∧ s'.1.stage k ≠ .idle ∧ ((s.1.stage k).admitted = true → (s'.1.stage k).admitted = true) ∧
      ((s'.2 ++ live').Pairwise fun x y => ¬(x = j ∧ y = k)) ∧
      ((k ∈ s.2 ++ live → Late (tickets s.1.marker) (s.2 ++ live) k) →
        k ∈ s'.2 ++ live' → Late (tickets s'.1.marker) (s'.2 ++ live') k) := by
  refine Runs.invariant (fun t : Pushers ι × List ι => ∃ live', Queued data t live' ∧ t.1.stage k ≠ .idle ∧
    ((s.1.stage k).admitted = true → (t.1.stage k).admitted = true) ∧ ((t.2 ++ live').Pairwise fun x y => ¬(x = j ∧ y = k)) ∧
    ((k ∈ s.2 ++ live → Late (tickets s.1.marker) (s.2 ++ live) k) → k ∈ t.2 ++ live' → Late (tickets t.1.marker) (t.2 ++ live') k))
    ?_ ⟨live, h, hk, id, hjk, id⟩ his hs
  intro t i t' ⟨live₁, hq, hstart, hadm, hord, hlate⟩ hno ht
  obtain ⟨t₂, live₂, ht₂, hq₂, hmoves⟩ := hq.step hno
  obtain rfl : t' = t₂ := Except.ok.inj (ht.symm.trans ht₂)
  obtain ⟨x, hx, rfl⟩ := Runs.logged_eq_ok.mp ht
  exact ⟨live₂, hq₂, ne_idle_of_step hx hstart, fun hk => admitted_of_step hx (hadm hk), hmoves.order hstart hord,
    fun hk => hmoves.late hq.nodup hstart (hlate hk)⟩

/-- A call that takes back its reservation makes those late that reserved after it. -/
theorem Queued.late_of_rollback {s s' : Pushers ι × List ι} {live : List ι} {i k : ι} (h : Queued data s live)
    (hi : s.1.stage i = .rejected) (hk : (s.1.stage k).outstanding = true) (hik : k ≠ i)
    (hord : (s.2 ++ live).Pairwise fun x y => ¬(x = k ∧ y = i)) (hs : Runs.logged (Pushers.step data) s i = .ok s') :
    ∃ live', Queued data s' live' ∧ Late (tickets s'.1.marker) (s'.2 ++ live') k := by
  obtain ⟨x, hx, rfl⟩ := Runs.logged_eq_ok.mp hs
  simp only [Pushers.step, hi] at hx
  obtain rfl := Except.ok.inj hx
  have hmem : k ∈ live := (h.outstanding k).mpr hk
  have hreserved := h.reserved
  obtain ⟨before, after, rfl, hq⟩ := Queueing.rollback h hi
  have hafter : k ∈ after := by
    rcases List.mem_append.mp hmem with hmem | hmem
    · exact absurd ⟨rfl, rfl⟩ ((List.pairwise_append.mp (List.pairwise_append.mp hord).2.1).2.2 k hmem i List.mem_cons_self)
    · exact (List.mem_cons.mp hmem).resolve_left hik
  obtain ⟨mid, rest, rfl⟩ := List.append_of_mem hafter
  rw [← List.cons_append, ← List.append_assoc] at hreserved
  have hticket := hreserved.add_length_le_ticket
  refine ⟨before ++ (mid ++ k :: rest), ?_, s.2 ++ before ++ mid, rest, ?_, ?_⟩
  · rw [List.append_nil]
    exact hq
  · simp
  · rw [List.length_append, List.length_cons] at hticket
    rw [List.length_append, List.length_append]
    unfold tickets at hticket ⊢
    simp only
    omega

end MiriWeirdness.Pushers
