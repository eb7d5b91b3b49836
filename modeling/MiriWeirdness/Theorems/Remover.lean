import MiriWeirdness.Lemmas.Remover

/-!
# What the pushers and the remover leave

One remover and any number of pushers, in any interleaving. As long as no push uses room that pops have freed, the ring is a queue: the
records come out whole, each once, in the order of their publication, and a guard is its holder's alone.
-/

namespace MiriWeirdness.RingThreads

open Buffer (Bytes slice)

variable {ι : Type} [DecidableEq ι] {cap : ℕ} {mem : Bytes} {r : BBRing}

/-! ## The queue -/

/-- Every interleaving of pushes, pops, writes through guards and drops can be run, without a fault, that overflows no counter and lets
no push into room that pops have freed. What it shows is the run of a queue, of which the published calls are what was put in; what was
popped and what is left are their payloads, each once, in the order of the publications. -/
theorem popped_in_order_of_publication (hr : BBRing.new cap (some mem) = .ok r) (data : ι → List UInt8) (moves : List (RingMove ι))
    (hmoves : Runs.Along (Runs.logged (step data)) (Within data) (start r, []) moves) :
    ∃ s, Runs.exec (Runs.logged (step data)) (start r, []) moves = .ok s ∧
      ∃ published : List ι, published.Nodup ∧ (∀ i, i ∈ published ↔ s.1.stage i = .published) ∧
        Fifo.given s.2 = published.map data ∧
        ∃ queue, Fifo.replay [] s.2 = some queue ∧ Fifo.taken s.2 ++ queue = published.map data := by
  obtain ⟨s, hs, a, dropped, held, pending, live, hq⟩ := Served.exec ⟨_, _, _, _, _, start_serves hr⟩ hmoves
  have htaken : Fifo.taken s.2 ++ pending.map data = (dropped ++ held ++ pending).map data := by
    rw [hq.taken, ← List.map_append]
  refine ⟨s, hs, dropped ++ held ++ pending, (List.nodup_append.mp hq.queued.nodup).1, fun i => ?_, ?_, _, hq.replay, htaken⟩
  · rw [hq.queued.published, hq.shadows.stage]
  · have hgiven := Fifo.append_given_of_replay hq.replay
    rw [List.nil_append] at hgiven
    rw [hgiven, htaken]

/-- The data of three calls. -/
def threePayloads : Fin 3 → List UInt8
  | 0 => [1]
  | 1 => [2, 3]
  | 2 => []

/-- Two pushes overtake each other, a pop finds nothing, and one waits for the guard of the pop before it. -/
def overtaking : List (RingMove (Fin 3)) :=
  [.push 0, .push 1, .push 1, .pop, .push 0, .pop, .push 1, .push 0, .push 1, .push 1, .pop, .push 0, .push 0, .push 0, .push 1, .push 1,
    .pop, .pop, .push 2, .pop, .write 0 0 7, .pop, .pop, .push 2, .pop, .push 2, .drop 0, .push 2, .pop, .pop, .push 2, .push 2]

theorem popped_in_order_of_publication_run :
    ∃ s, Runs.exec (Runs.logged (step threePayloads)) (start { marker := 0, removeMarker := 0, buf := fun _ => 0, cap := 20 }, [])
        overtaking = .ok s ∧
      ∃ published : List (Fin 3), published.Nodup ∧ (∀ i, i ∈ published ↔ s.1.stage i = .published) ∧
        Fifo.given s.2 = published.map threePayloads ∧
        ∃ queue, Fifo.replay [] s.2 = some queue ∧ Fifo.taken s.2 ++ queue = published.map threePayloads :=
  @popped_in_order_of_publication (Fin 3) _ 20 (fun _ => 0) _ rfl threePayloads overtaking (by decide)

example : Except.map Prod.snd (Runs.exec (Runs.logged (step threePayloads))
    (start { marker := 0, removeMarker := 0, buf := fun _ => 0, cap := 20 }, []) overtaking) =
      .ok [.empty, .accepted [1], .accepted [2, 3], .popped [1], .popped [2, 3], .accepted []] := rfl

/-! ## The guard -/

/-- A guard that is alive in a state that such a run reaches is the only one, and stays so until it is dropped; whatever the pushers and
the remover do until then, its bytes are those it had, changed only where they were written through it. -/
theorem guard_exclusive (hr : BBRing.new cap (some mem) = .ok r) (data : ι → List UInt8) (moves more : List (RingMove ι))
    {s : RingThreads ι × List (Fifo.Event (List UInt8))} {g : BufGuard}
    (hmoves : Runs.Along (Runs.logged (step data)) (Within data) (start r, []) moves)
    (hs : Runs.exec (Runs.logged (step data)) (start r, []) moves = .ok s) (hg : g ∈ s.1.guards)
    (hmore : Runs.Along (Runs.logged (step data)) (Within data) s more) (hdrop : ∀ k, .drop k ∉ more) :
    ∃ bytes s', s.1.ring.asRef g = .ok bytes ∧ Runs.exec (Runs.logged (step data)) s more = .ok s' ∧ s'.1.guards = [g] ∧
      s'.1.ring.asRef g = .ok (more.foldl through bytes) := by
  obtain ⟨t, ht, hserved⟩ := Served.exec ⟨_, _, _, _, _, start_serves hr⟩ hmoves
  obtain rfl : s = t := Except.ok.inj (hs.symm.trans ht)
  obtain ⟨k, hk⟩ := List.mem_iff_getElem?.mp hg
  obtain ⟨hasRef, hguards⟩ : s.1.ring.asRef g = .ok (slice s.1.ring.buf g.ptr g.len) ∧ s.1.guards = [g] := by
    obtain ⟨a, dropped, held, pending, live, hq⟩ := hserved
    obtain ⟨-, -, -, hguards, -⟩ := hq.guard_end hk
    exact ⟨hq.asRef_eq hguards rfl, hguards⟩
  -- the invariant of the moves taken since
  obtain ⟨s', hs', hserved', hguards', hbytes⟩ := Runs.progress_history (fun (done : List (RingMove ι))
      (t : RingThreads ι × List (Fifo.Event (List UInt8))) => Served data t ∧ t.1.guards = [g] ∧
        slice t.1.ring.buf g.ptr g.len = done.foldl through (slice s.1.ring.buf g.ptr g.len)) ⟨hserved, hguards, rfl⟩
    (fun done m t hdone ⟨hserved, hguards, hbytes⟩ hm => by
      have hmem : m ∈ more := hdone.subset (List.mem_append_right _ (List.mem_singleton_self m))
      obtain ⟨t', ht', hserved', hguards', hbytes'⟩ := hserved.step_guarded hm hguards fun k hk => hdrop k (hk ▸ hmem)
      refine ⟨t', ht', hserved', hguards', ?_⟩
      rw [hbytes', hbytes, List.foldl_append]
      rfl) hmore
  refine ⟨_, s', hasRef, hs', hguards', ?_⟩
  obtain ⟨a, dropped, held, pending, live, hq⟩ := hserved'
  rw [hq.asRef_eq hguards' rfl, hbytes]

/-- A push and a pop, with its guard. -/
def guarding : List (RingMove (Fin 3)) := [.push 1, .push 1, .push 1, .push 1, .push 1, .push 1, .pop, .pop, .pop]

/-- A guard that is written through while a push is on its way and a pop waits. -/
theorem guard_exclusive_run :
    ∃ s, Runs.exec (Runs.logged (step threePayloads)) (start { marker := 0, removeMarker := 0, buf := fun _ => 0, cap := 20 }, [])
        guarding = .ok s ∧
      ∃ bytes s', s.1.ring.asRef { ptr := 4, len := 2 } = .ok bytes ∧
        Runs.exec (Runs.logged (step threePayloads)) s [.push 0, .push 0, .write 0 1 9, .push 0, .pop, .push 0, .pop] = .ok s' ∧
        s'.1.guards = [{ ptr := 4, len := 2 }] ∧
        s'.1.ring.asRef { ptr := 4, len := 2 } =
          .ok ([.push 0, .push 0, .write 0 1 9, .push 0, .pop, .push 0, .pop].foldl through bytes) := by
  have hall : Runs.Along (Runs.logged (step threePayloads)) (Within threePayloads)
      (start { marker := 0, removeMarker := 0, buf := fun _ => 0, cap := 20 }, [])
      (guarding ++ [.push 0, .push 0, .write 0 1 9, .push 0, .pop, .push 0, .pop]) := by decide
  obtain ⟨s, hs, -⟩ := Served.exec ⟨_, _, _, _, _, @start_serves (Fin 3) threePayloads 20 (fun _ => 0) _ rfl⟩ hall.prefix
  have hguards : Except.map (fun s => s.1.guards) (Runs.exec (Runs.logged (step threePayloads))
      (start { marker := 0, removeMarker := 0, buf := fun _ => 0, cap := 20 }, []) guarding) = .ok [{ ptr := 4, len := 2 }] := rfl
  rw [hs] at hguards
  have hguards : s.1.guards = [{ ptr := 4, len := 2 }] := Except.ok.inj hguards
  exact ⟨s, hs, @guard_exclusive (Fin 3) _ 20 (fun _ => 0) _ rfl threePayloads guarding _ s { ptr := 4, len := 2 } hall.prefix hs
    (by rw [hguards]; exact List.mem_singleton_self _) (hall.suffix hs) (by simp)⟩

/-! ## The remover -/

/-- A pop that starts while no guard is alive does not wait: whatever the pushers do in between, it is over after its third step, with
the guard of the next record, or having found nothing. -/
theorem pop_over_in_three_steps (hr : BBRing.new cap (some mem) = .ok r) (data : ι → List UInt8) (moves : List (RingMove ι))
    (is js ks : List ι) {s : RingThreads ι × List (Fifo.Event (List UInt8))}
    (hmoves : Runs.Along (Runs.logged (step data)) (Within data) (start r, []) moves)
    (hs : Runs.exec (Runs.logged (step data)) (start r, []) moves = .ok s) (hidle : s.1.removal = .idle) (hguards : s.1.guards = [])
    (hmore : Runs.Along (Runs.logged (step data)) (Within data) s
      ((is.map .push ++ [.pop]) ++ (js.map .push ++ [.pop]) ++ (ks.map .push ++ [.pop]))) :
    ∃ s', Runs.exec (Runs.logged (step data)) s
        ((is.map .push ++ [.pop]) ++ (js.map .push ++ [.pop]) ++ (ks.map .push ++ [.pop])) = .ok s' ∧
      s'.1.removal = .idle ∧
      (s'.1.guards = [] ∧ Fifo.taken s'.2 = Fifo.taken s.2 ∨
        ∃ g i, s'.1.guards = [g] ∧ s'.1.ring.asRef g = .ok (data i) ∧ Fifo.taken s'.2 = Fifo.taken s.2 ++ [data i]) := by
  obtain ⟨t, ht, hserved⟩ := Served.exec ⟨_, _, _, _, _, start_serves hr⟩ hmoves
  obtain rfl : s = t := Except.ok.inj (hs.symm.trans ht)
  have hfirst := hmore.prefix
  have hstart := hfirst.prefix
  obtain ⟨s₁, rem, hs₁, hserved₁, hcounted, hnow, hguards₁, htaken₁⟩ := hserved.exec_pop_idle hidle hguards hstart
  obtain ⟨s₂, hs₂, hserved₂, hlast, hguards₂, htaken₂⟩ := hserved₁.exec_pop_counted hcounted hnow (hfirst.suffix hs₁)
  have hs₁₂ := Runs.exec_append.mpr ⟨s₁, hs₁, hs₂⟩
  rw [hguards₁] at hguards₂
  obtain ⟨s₃, hs₃, hidle₃, hres⟩ := hserved₂.exec_pop_last hlast hguards₂ (hmore.suffix hs₁₂)
  rw [htaken₂, htaken₁] at hres
  exact ⟨s₃, Runs.exec_append.mpr ⟨s₂, hs₁₂, hs₃⟩, hidle₃, hres⟩

/-- A push is published while the pop is under way. -/
theorem pop_over_in_three_steps_run :
    ∃ s', Runs.exec (Runs.logged (step threePayloads)) (start { marker := 0, removeMarker := 0, buf := fun _ => 0, cap := 20 }, [])
        (([1, 1, 1, 1, 1].map .push ++ [.pop]) ++ ([1, 0].map .push ++ [.pop]) ++ ([0].map .push ++ [.pop])) = .ok s' ∧
      s'.1.removal = .idle ∧
      (s'.1.guards = [] ∧ Fifo.taken s'.2 = [] ∨
        ∃ g i, s'.1.guards = [g] ∧ s'.1.ring.asRef g = .ok (threePayloads i) ∧ Fifo.taken s'.2 = [threePayloads i]) :=
  @pop_over_in_three_steps (Fin 3) _ 20 (fun _ => 0) _ rfl threePayloads [] [1, 1, 1, 1, 1] [1, 0] [0] _ trivial rfl rfl rfl (by decide)

/-- What `pop_front` does of the markers, and the guard it makes. -/
theorem popFront_eq {ring : BBRing} : ring.popFront = (do
    let (ms, rem) ← ring.toMarkers.popFront
    match rem with
    | none => .ok ({ ring with toMarkers := ms }, none)
    | some rem => do
      let g ← ring.guardAt rem
      .ok ({ ring with toMarkers := ms }, some g)) := by
  unfold BBRing.popFront
  refine congrArg (fun f => Markers.popFront ring.toMarkers >>= f) (funext fun x => ?_)
  obtain ⟨ms, rem⟩ := x
  cases rem with
  | none => rfl
  | some rem =>
    simp only [BBRing.guardAt]
    by_cases hcap : ring.cap = 0
    · rw [if_pos hcap, if_pos hcap, error_bind]
    · rw [if_neg hcap, if_neg hcap]
      cases ring.read (rem.head.toNat % ring.cap) headerSize with
      | error e => rfl
      | ok bs => rfl

/-- The last step of a pop that has found a record. -/
theorem exec_reading {data : ι → List UInt8} {p : Pushers ι} {rem : Marker 64} {guards : List BufGuard} {g : BufGuard} {bytes : List UInt8}
    (hg : p.ring.guardAt rem = .ok g) (hread : p.ring.asRef g = .ok bytes) :
    Runs.logged (step data) (⟨p, .reading rem, guards⟩, []) .pop = .ok (⟨p, .idle, guards ++ [g]⟩, [.popped bytes]) := by
  refine Runs.logged_eq_ok.mpr ⟨(⟨p, .idle, guards ++ [g]⟩, [.popped bytes]), ?_, rfl⟩
  simp only [step, pop, hg, hread, ok_bind]

/-- The steps of a pop that runs alone are `BBRing::pop_front`, if the guard that it makes lies in the buffer. -/
theorem exec_pop_alone {data : ι → List UInt8} {p : Pushers ι} {guards : List BufGuard} {r' : BBRing} {g : Option BufGuard}
    (h : p.ring.popFront = .ok (r', g)) (hread : ∀ g' ∈ g, ∃ bytes, r'.asRef g' = .ok bytes) :
    ∃ n s' es, Runs.exec (Runs.logged (step data)) (⟨p, .idle, guards⟩, []) (List.replicate n .pop) = .ok (s', es) ∧
      s'.removal = .idle ∧ s'.ring = r' ∧ s'.guards = guards ++ g.toList := by
  obtain ⟨⟨⟨w, removed⟩, buf, cap⟩, stage, marker⟩ := p
  rw [popFront_eq] at h
  obtain ⟨⟨ms, rem⟩, hms, hg⟩ := bind_eq_ok.mp h
  -- the increment is kept from being computed
  obtain ⟨one, hone⟩ : ∃ one, one = (Marker.new 0 1 0 : Marker 64).raw := ⟨_, rfl⟩
  unfold Markers.popFront at hms
  simp only [← hone] at hms
  obtain ⟨q, hq⟩ : ∃ q : Pushers ι, q = ⟨⟨⟨w, removed + one⟩, buf, cap⟩, stage, marker⟩ := ⟨_, rfl⟩
  have hcounted : Runs.logged (step data) (⟨⟨⟨⟨w, removed⟩, buf, cap⟩, stage, marker⟩, .idle, guards⟩, []) .pop =
      .ok (⟨q, .counted ⟨removed⟩, guards⟩, []) := by
    rw [hq, hone]
    exact Runs.logged_eq_ok.mpr ⟨(_, []), rfl, rfl⟩
  have hlast : ∀ {rem g' bytes}, q.ring.guardAt rem = .ok g' → q.ring.asRef g' = .ok bytes →
      Runs.exec (Runs.logged (step data)) (⟨q, .reading rem, guards⟩, []) [.pop] = .ok (⟨q, .idle, guards ++ [g']⟩, [.popped bytes]) := by
    intro rem g' bytes hguard hbytes
    rw [Runs.exec_cons_ok (exec_reading hguard hbytes), Runs.exec_nil]
  by_cases hempty : (Marker.mk removed).len ≥ (Marker.mk w).finishedLen
  · rw [if_pos hempty] at hms
    obtain ⟨rfl, rfl⟩ := Prod.mk.inj (Except.ok.inj hms)
    obtain ⟨rfl, rfl⟩ := Prod.mk.inj (Except.ok.inj hg)
    have hback : Runs.logged (step data) (⟨q, .counted ⟨removed⟩, guards⟩, []) .pop = .ok (⟨q, .turnedAway, guards⟩, [.empty]) := by
      refine Runs.logged_eq_ok.mpr ⟨(⟨q, .turnedAway, guards⟩, [.empty]), ?_, rfl⟩
      simp only [step, pop, hq, if_pos hempty]
    have hidle : Runs.logged (step data) (⟨q, .turnedAway, guards⟩, [.empty]) .pop =
        .ok (⟨⟨⟨⟨w, removed + one - one⟩, buf, cap⟩, stage, marker⟩, .idle, guards⟩, [.empty]) := by
      refine Runs.logged_eq_ok.mpr ⟨(⟨⟨⟨⟨w, removed + one - one⟩, buf, cap⟩, stage, marker⟩, .idle, guards⟩, []), ?_, rfl⟩
      simp only [step, pop, hq, ← hone]
    refine ⟨3, _, _, (Runs.exec_cons_ok hcounted).trans ((Runs.exec_cons_ok hback).trans ((Runs.exec_cons_ok hidle).trans Runs.exec_nil)),
      rfl, rfl, (List.append_nil guards).symm⟩
  · rw [if_neg hempty] at hms
    by_cases hwait : (Marker.mk removed).finishedLen ≠ (Marker.mk removed).len
    · rw [if_pos hwait] at hms
      by_cases hdone : (Marker.mk removed).len ≠ (Marker.mk (removed + one)).finishedLen
      · rw [if_pos hdone] at hms
        cases hms
      · rw [if_neg hdone] at hms
        obtain ⟨rfl, rfl⟩ := Prod.mk.inj (Except.ok.inj hms)
        obtain ⟨g', hguard, hres⟩ := bind_eq_ok.mp hg
        obtain ⟨rfl, rfl⟩ := Prod.mk.inj (Except.ok.inj hres)
        obtain ⟨bytes, hbytes⟩ := hread g' rfl
        have hwaiting : Runs.logged (step data) (⟨q, .counted ⟨removed⟩, guards⟩, []) .pop =
            .ok (⟨q, .waiting ⟨removed⟩, guards⟩, []) := by
          refine Runs.logged_eq_ok.mpr ⟨(⟨q, .waiting ⟨removed⟩, guards⟩, []), ?_, rfl⟩
          simp only [step, pop, hq, if_neg hempty, if_pos hwait]
        have hreading : Runs.logged (step data) (⟨q, .waiting ⟨removed⟩, guards⟩, []) .pop =
            .ok (⟨q, .reading ⟨removed + one⟩, guards⟩, []) := by
          refine Runs.logged_eq_ok.mpr ⟨(⟨q, .reading ⟨removed + one⟩, guards⟩, []), ?_, rfl⟩
          simp only [step, pop, hq, if_neg hdone]
        refine ⟨4, _, _, (Runs.exec_cons_ok hcounted).trans ((Runs.exec_cons_ok hwaiting).trans ((Runs.exec_cons_ok hreading).trans
          (hlast (by rw [hq]; exact hguard) (by rw [hq]; exact hbytes)))), rfl, by rw [hq], rfl⟩
    · rw [if_neg hwait] at hms
      obtain ⟨rfl, rfl⟩ := Prod.mk.inj (Except.ok.inj hms)
      obtain ⟨g', hguard, hres⟩ := bind_eq_ok.mp hg
      obtain ⟨rfl, rfl⟩ := Prod.mk.inj (Except.ok.inj hres)
      obtain ⟨bytes, hbytes⟩ := hread g' rfl
      have hreading : Runs.logged (step data) (⟨q, .counted ⟨removed⟩, guards⟩, []) .pop =
          .ok (⟨q, .reading ⟨removed⟩, guards⟩, []) := by
        refine Runs.logged_eq_ok.mpr ⟨(⟨q, .reading ⟨removed⟩, guards⟩, []), ?_, rfl⟩
        simp only [step, pop, hq, if_neg hempty, if_neg hwait]
      refine ⟨3, _, _, (Runs.exec_cons_ok hcounted).trans ((Runs.exec_cons_ok hreading).trans (hlast (by rw [hq]; exact hguard) (by rw [hq]; exact hbytes))),
        rfl, by rw [hq], rfl⟩

end MiriWeirdness.RingThreads
