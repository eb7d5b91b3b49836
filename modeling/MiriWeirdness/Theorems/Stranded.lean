import MiriWeirdness.Lemmas.Orderly
import MiriWeirdness.Theorems.Pushers

/-!
# Pushes that wait for ever

`push` takes a reservation back by lowering the counters, which leaves the tickets of those that have reserved since as they are. Once
that has happened to a call that goes on to write, the ring has published its last record. If it never happens, because reservations are
taken back in the opposite order, no call has to wait for ever.
-/

namespace MiriWeirdness.Pushers

variable {ι : Type} [DecidableEq ι] {cap : ℕ} {r : BBRing} {mem : Buffer.Bytes}

/-- When a call takes its reservation back, no call that has reserved since is ever published; and if one of these passes the capacity
check, it stays outstanding for ever, and no call that starts later is ever published either. -/
theorem rollback_strands (hr : BBRing.new cap (some mem) = .ok r) (data : ι → List UInt8) (is js ks : List ι) {i k : ι}
    {s₀ s₁ s₂ : Pushers ι × List ι} (hno : Runs.Along (Runs.logged (step data)) (NoOverflow data) (start r, []) (is ++ js ++ i :: ks))
    (hs₀ : Runs.exec (Runs.logged (step data)) (start r, []) is = .ok s₀) (hi₀ : (s₀.1.stage i).outstanding = true)
    (hk₀ : s₀.1.stage k = .idle) (hs₁ : Runs.exec (Runs.logged (step data)) s₀ js = .ok s₁) (hi₁ : s₁.1.stage i = .rejected)
    (hk₁ : (s₁.1.stage k).outstanding = true) (hs₂ : Runs.exec (Runs.logged (step data)) s₁ (i :: ks) = .ok s₂) :
    s₂.1.stage k ≠ .published ∧
      ((s₁.1.stage k).admitted = true →
        (s₂.1.stage k).outstanding = true ∧ ∀ j, s₁.1.stage j = .idle → s₂.1.stage j ≠ .published) := by
  have hno₁ := hno.prefix
  have hno₂ := hno.suffix (Runs.exec_append.mpr ⟨s₀, hs₀, hs₁⟩)
  obtain ⟨t₀, ht₀, live₀, hq₀⟩ := (start_queued hr).exec hno₁.prefix
  obtain rfl : s₀ = t₀ := Except.ok.inj (hs₀.symm.trans ht₀)
  have hki : k ≠ i := by
    rintro rfl
    rw [hk₀] at hi₀
    cases hi₀
  have hne : ∀ {st : Stage}, st.outstanding = true → st ≠ .idle := by
    rintro st hst rfl
    cases hst
  have hpair : ∀ {s : Pushers ι × List ι} {live : List ι} {x y : ι}, Queued data s live → s.1.stage x = .idle →
      (s.2 ++ live).Pairwise fun a b => ¬(a = x ∧ b = y) := by
    intro s live x y hq hx
    refine List.pairwise_of_forall_mem_list fun a ha b _ hab => ?_
    have hout := hq.not_mem_of_idle hx
    rw [← hab.1] at hout
    exact (List.mem_append.mp ha).elim hout.1 hout.2
  -- `k` is behind `i`, until `i` leaves
  obtain ⟨live₁, hq₁, -, -, hord, -⟩ := hq₀.exec_order (hne hi₀) (hpair hq₀ hk₀) (hno₁.suffix hs₀) hs₁
  obtain ⟨t, ht, hs₂⟩ := Runs.exec_cons_eq_ok.mp hs₂
  have hno₃ := hno₂.2 t ht
  obtain ⟨live, hq, hlate⟩ := hq₁.late_of_rollback hi₁ hk₁ hki hord ht
  obtain ⟨x, hx, rfl⟩ := Runs.logged_eq_ok.mp ht
  have hkt := ne_idle_of_step hx (hne hk₁)
  have hunpublished : ∀ {live₂}, Queued data s₂ live₂ → (k ∈ s₂.2 ++ live₂ → Late (tickets s₂.1.marker) (s₂.2 ++ live₂) k) →
      s₂.1.stage k ≠ .published := by
    intro live₂ hq₂ hlate₂ hpub
    have hmem := (hq₂.published k).mpr hpub
    exact (hlate₂ (List.mem_append_left _ hmem)).not_mem hq₂.placed hq₂.nodup hmem
  have hself : (x.1, s₁.2 ++ x.2).2 ++ live |>.Pairwise fun a b => ¬(a = k ∧ b = k) :=
    hq.nodup.imp fun hab hk => hab (hk.1.trans hk.2.symm)
  obtain ⟨live₂, hq₂, -, hadm₂, -, hlate₂⟩ := hq.exec_order hkt hself hno₃ hs₂
  have hk₂ := hunpublished hq₂ (hlate₂ fun _ => hlate)
  refine ⟨hk₂, fun hadm => ?_⟩
  have hout : (s₂.1.stage k).outstanding = true :=
    outstanding_of_admitted (hadm₂ (admitted_of_step hx hadm)) hk₂
  refine ⟨hout, fun j hj hpub => ?_⟩
  -- whoever starts later is behind `k`
  have hjt : x.1.stage j = .idle := by
    obtain ⟨-, st, -, hst⟩ := stage_of_step hx
    have hji : j ≠ i := by
      rintro rfl
      rw [hj] at hi₁
      cases hi₁
    rw [hst, Function.update_of_ne hji, hj]
  obtain ⟨live₃, hq₃, -, -, hord₃, -⟩ := hq.exec_order hkt (hpair hq hjt) hno₃ hs₂
  exact (List.pairwise_append.mp hord₃).2.2 j ((hq₃.published j).mpr hpub) k ((hq₃.outstanding k).mpr hout) ⟨rfl, rfl⟩

/-- The first call is rejected and takes its reservation back after the second has reserved, so the third gets the ticket of the second.
When the second is rejected too, the third has passed the check. -/
theorem rollback_strands_run :
    ∃ s₁ s₂, Runs.exec (Runs.logged (step firstTooLong)) (start { marker := 0, removeMarker := 0, buf := fun _ => 0, cap := 12 }, [])
        [0, 0, 1, 0, 2, 1, 2] = .ok s₁ ∧
      Runs.exec (Runs.logged (step firstTooLong)) s₁ [1, 2, 2, 3, 2, 3, 3] = .ok s₂ ∧
      (s₂.1.stage 2).outstanding = true ∧ s₂.1.stage 3 ≠ .published := by
  have hno : Runs.Along (Runs.logged (step firstTooLong)) (NoOverflow firstTooLong)
      (start { marker := 0, removeMarker := 0, buf := fun _ => 0, cap := 12 }, [])
      ([0, 0, 1, 0] ++ [2, 1, 2] ++ 1 :: [2, 2, 3, 2, 3, 3]) := by decide
  obtain ⟨s₂, hs, -⟩ := (@start_queued _ firstTooLong 12 (fun _ => 0) _ rfl).exec hno
  obtain ⟨s₁, hs₁, hs₂⟩ := Runs.exec_append.mp hs
  obtain ⟨s₀, hs₀, hs₀₁⟩ := Runs.exec_append.mp hs₁
  have h₀ : Except.map (fun s => (s.1.stage 1, s.1.stage 2)) (.ok s₀ : Except Fault _) = .ok (.reserved, .idle) := by
    rw [← hs₀]
    rfl
  have h₁ : Except.map (fun s => (s.1.stage 1, s.1.stage 2, s.1.stage 3)) (.ok s₁ : Except Fault _) =
      .ok (.rejected, .accepted, .idle) := by
    rw [← hs₁]
    rfl
  obtain ⟨hi₀, hk₀⟩ := Prod.mk.inj (Except.ok.inj h₀)
  obtain ⟨hi₁, hrest⟩ := Prod.mk.inj (Except.ok.inj h₁)
  obtain ⟨hk₁, hj₁⟩ := Prod.mk.inj hrest
  obtain ⟨-, hstuck⟩ := @rollback_strands (Fin 4) _ 12 _ (fun _ => 0) rfl firstTooLong _ _ _ 1 2 s₀ s₁ s₂ hno hs₀
    (by rw [hi₀]; rfl) hk₀ hs₀₁ hi₁ (by rw [hk₁]; rfl) hs₂
  obtain ⟨hout, hlater⟩ := hstuck (by rw [hk₁]; rfl)
  exact ⟨s₁, s₂, hs₁, hs₂, hout, hlater 3 hj₁⟩

/-- If reservations are taken back only by the call that has the last ticket handed out, every call that is outstanding can be brought to
its end by steps of its own and of the others that are, in which none starts and reservations are taken back in that order as well; those
that have passed the capacity check are then published. -/
theorem orderly_can_finish (hr : BBRing.new cap (some mem) = .ok r) (data : ι → List UInt8) (is : List ι)
    (his : Runs.Along (Runs.logged (step data)) (Orderly data) (start r, []) is) :
    ∃ s, Runs.exec (Runs.logged (step data)) (start r, []) is = .ok s ∧
      ∃ js s', Runs.Along (Runs.logged (step data)) (Orderly data) s js ∧ Runs.exec (Runs.logged (step data)) s js = .ok s' ∧
        (∀ i, (s'.1.stage i).outstanding = false) ∧
        (∀ i, (s.1.stage i).admitted = true → s'.1.stage i = .published) ∧
        ∀ i, s.1.stage i = .idle → s'.1.stage i = .idle := by
  obtain ⟨s, hs, live, hlined⟩ := Runs.progress_history (fun _ s => ∃ live, Lined data s live) ⟨[], start_lined hr⟩
    (fun _ _ _ _ ⟨_, hlined⟩ ho =>
      have ⟨s', live', hs, hlined', _⟩ := hlined.step ho
      ⟨s', hs, live', hlined'⟩) his
  obtain ⟨js, s', hjs, hs', hdone, hadm, hidle⟩ := hlined.finish
  refine ⟨s, hs, js, s', hjs, hs', hdone, fun i hi => ?_, hidle⟩
  by_contra hnot
  have hout := outstanding_of_admitted (hadm i hi) hnot
  rw [hdone i] at hout
  cases hout

/-- The call that reserved first is writing when the two behind it are rejected. -/
theorem orderly_can_finish_run :
    ∃ s, Runs.exec (Runs.logged (step firstTooLong)) (start { marker := 0, removeMarker := 0, buf := fun _ => 0, cap := 12 }, [])
        [1, 1, 0, 2, 0, 1, 2] = .ok s ∧
      ∃ js s', Runs.Along (Runs.logged (step firstTooLong)) (Orderly firstTooLong) s js ∧
        Runs.exec (Runs.logged (step firstTooLong)) s js = .ok s' ∧ (∀ i, (s'.1.stage i).outstanding = false) ∧
        (∀ i, (s.1.stage i).admitted = true → s'.1.stage i = .published) ∧ ∀ i, s.1.stage i = .idle → s'.1.stage i = .idle :=
  @orderly_can_finish (Fin 4) _ 12 _ (fun _ => 0) rfl firstTooLong [1, 1, 0, 2, 0, 1, 2] (by decide)

end MiriWeirdness.Pushers
