import Mathlib.Data.List.Induction

/-!
# Runs of a machine that may fail

A machine is a step function `σ → ι → Except ε σ`: it takes a state and an input and either fails or gives the next state.
`exec` runs a list of inputs and stops at the first failure. `Along step P s is` says that every input of the run is taken in a
state of which, with that input, `P` holds: it is how a condition on the steps of a run is stated. The rules at the end are
the inductions on runs: `invariant` and `invariant_history` for what a run keeps where it ends, `progress_history` for what makes
it end, and `exec_agree` for two machines that run alike.
-/

namespace Runs

variable {σ ι ε : Type*}

/-- Run the inputs one after another, stopping at the first that fails. -/
def exec (step : σ → ι → Except ε σ) : σ → List ι → Except ε σ
  | s, [] => .ok s
  | s, i :: is =>
    match step s i with
    | .ok s' => exec step s' is
    | .error e => .error e

/-- Every input of the run is taken in a state of which, with that input, `P` holds. -/
def Along (step : σ → ι → Except ε σ) (P : σ → ι → Prop) : σ → List ι → Prop
  | _, [] => True
  | s, i :: is => P s i ∧ ∀ s', step s i = .ok s' → Along step P s' is

/-- The machine that keeps the outputs of its steps, in order, beside its state. -/
def logged {ω : Type*} (step : σ → ι → Except ε (σ × List ω)) (s : σ × List ω) (i : ι) : Except ε (σ × List ω) :=
  (step s.1 i).map fun r => (r.1, s.2 ++ r.2)

variable {step : σ → ι → Except ε σ} {P Q : σ → ι → Prop} {s s' : σ} {i : ι} {is js : List ι}

instance instDecidableAlong [∀ s i, Decidable (P s i)] : ∀ s is, Decidable (Along step P s is)
  | _, [] => isTrue trivial
  | s, i :: is =>
    match h : step s i with
    | .ok s' =>
      have : Decidable (Along step P s' is) := instDecidableAlong s' is
      decidable_of_iff (P s i ∧ Along step P s' is) (by simp [Along, h])
    | .error _ => decidable_of_iff (P s i) (by simp [Along, h])

@[simp] theorem exec_nil : exec step s [] = .ok s := rfl

theorem exec_cons_ok (h : step s i = .ok s') : exec step s (i :: is) = exec step s' is := by
  simp only [exec, h]

/-- A run that ends took its first step. -/
theorem exec_cons_eq_ok {s'' : σ} : exec step s (i :: is) = .ok s'' ↔ ∃ s', step s i = .ok s' ∧ exec step s' is = .ok s'' := by
  constructor
  · intro h
    cases hs : step s i with
    | ok s' => exact ⟨s', rfl, by rwa [exec_cons_ok hs] at h⟩
    | error e => simp [exec, hs] at h
  · rintro ⟨s', hs, h⟩
    rwa [exec_cons_ok hs]

/-- A run over two lists of inputs is the run over the first followed by the run over the second. -/
theorem exec_append {s'' : σ} :
    exec step s (is ++ js) = .ok s'' ↔ ∃ s', exec step s is = .ok s' ∧ exec step s' js = .ok s'' := by
  induction is generalizing s with
  | nil => simp
  | cons i is ih =>
    simp only [List.cons_append, exec_cons_eq_ok, ih]
    constructor
    · rintro ⟨s₁, h₁, s₂, h₂, h₃⟩
      exact ⟨s₂, ⟨s₁, h₁, h₂⟩, h₃⟩
    · rintro ⟨s₂, ⟨s₁, h₁, h₂⟩, h₃⟩
      exact ⟨s₁, h₁, s₂, h₂, h₃⟩

/-- A condition along a run holds along each of its prefixes. -/
theorem Along.prefix (h : Along step P s (is ++ js)) : Along step P s is := by
  induction is generalizing s with
  | nil => trivial
  | cons i is ih => exact ⟨h.1, fun s' hs => ih (h.2 s' hs)⟩

/-- A condition along a run holds along what is left of it after a prefix. -/
theorem Along.suffix (h : Along step P s (is ++ js)) (hs : exec step s is = .ok s') : Along step P s' js := by
  induction is generalizing s with
  | nil =>
    cases hs
    exact h
  | cons i is ih =>
    obtain ⟨s₁, h₁, h₂⟩ := exec_cons_eq_ok.mp hs
    exact ih (h.2 s₁ h₁) h₂

/-- A condition along a run and along the run that follows it. -/
theorem Along.append (h : Along step P s is) (h' : ∀ s', exec step s is = .ok s' → Along step P s' js) :
    Along step P s (is ++ js) := by
  induction is generalizing s with
  | nil => exact h' s rfl
  | cons i is ih => exact ⟨h.1, fun s₁ h₁ => ih (h.2 s₁ h₁) fun s' hs => h' s' (by rw [exec_cons_ok h₁, hs])⟩

/-- Two conditions along a run. -/
theorem Along.and (h : Along step P s is) (h' : Along step Q s is) : Along step (fun s i => P s i ∧ Q s i) s is := by
  induction is generalizing s with
  | nil => trivial
  | cons i is ih => exact ⟨⟨h.1, h'.1⟩, fun s' hs => ih (h.2 s' hs) (h'.2 s' hs)⟩

/-- A condition that every step that can be taken meets. -/
theorem Along.of_exec (hstep : ∀ s i s', step s i = .ok s' → P s i) (h : exec step s is = .ok s') : Along step P s is := by
  induction is generalizing s with
  | nil => trivial
  | cons i is ih =>
    obtain ⟨s₁, h₁, h₂⟩ := exec_cons_eq_ok.mp h
    refine ⟨hstep s i s₁ h₁, fun s₂ hs₂ => ?_⟩
    obtain rfl : s₁ = s₂ := Except.ok.inj (h₁.symm.trans hs₂)
    exact ih h₂

/-- A step of the logging machine. -/
theorem logged_eq_ok {ω : Type*} {step : σ → ι → Except ε (σ × List ω)} {s s' : σ × List ω} {i : ι} :
    logged step s i = .ok s' ↔ ∃ r, step s.1 i = .ok r ∧ s' = (r.1, s.2 ++ r.2) := by
  unfold logged
  cases step s.1 i with
  | error e => simp [Except.map]
  | ok r => simp [Except.map, eq_comm]

/-- A condition that always holds. -/
theorem Along.of_forall (h : ∀ s i, P s i) : Along step P s is := by
  induction is generalizing s with
  | nil => trivial
  | cons i is ih => exact ⟨h s i, fun _ _ => ih⟩

/-- What every step keeps, a run keeps: the rule for the states a run ends in. -/
theorem invariant (I : σ → Prop) (hstep : ∀ s i s', I s → P s i → step s i = .ok s' → I s') (hI : I s)
    (hP : Along step P s is) (h : exec step s is = .ok s') : I s' := by
  induction is generalizing s with
  | nil =>
    cases h
    exact hI
  | cons i is ih =>
    obtain ⟨s₁, h₁, h₂⟩ := exec_cons_eq_ok.mp h
    exact ih (hstep s i s₁ hI hP.1 h₁) (hP.2 s₁ h₁) h₂

/-- Two conditions that agree in every state with the invariant agree along the runs from one. -/
theorem Along.iff_of_invariant (I : σ → Prop) (hstep : ∀ s i s', I s → step s i = .ok s' → I s') (h : ∀ s i, I s → (P s i ↔ Q s i))
    (hI : I s) : Along step P s is ↔ Along step Q s is := by
  induction is generalizing s with
  | nil => exact Iff.rfl
  | cons i is ih =>
    refine and_congr (h s i hI) (forall_congr' fun s' => forall_congr' fun hs => ?_)
    exact ih (hstep s i s' hI hs)

/-- An invariant of the inputs taken so far and the state: what every step of the run keeps holds where the run ends. -/
theorem invariant_history (I : List ι → σ → Prop) (hI : I [] s)
    (hstep : ∀ done i s s', done ++ [i] <+: is → I done s → P s i → step s i = .ok s' → I (done ++ [i]) s')
    (hP : Along step P s is) (h : exec step s is = .ok s') : I is s' := by
  induction is using List.reverseRecOn generalizing s' with
  | nil =>
    cases h
    exact hI
  | append_singleton is i ih =>
    obtain ⟨s₁, h₁, h₂⟩ := exec_append.mp h
    obtain ⟨s₂, h₂, h₃⟩ := exec_cons_eq_ok.mp h₂
    cases h₃
    have hI₁ := ih (fun done i s s' hd => hstep done i s s' (hd.trans (List.prefix_append _ _))) hP.prefix h₁
    exact hstep is i s₁ s' (List.prefix_refl _) hI₁ (hP.suffix h₁).1 h₂

/-- When every step of the run can be taken and keeps the invariant, the run ends, in a state that has it. -/
theorem progress_history (I : List ι → σ → Prop) (hI : I [] s)
    (hstep : ∀ done i s, done ++ [i] <+: is → I done s → P s i → ∃ s', step s i = .ok s' ∧ I (done ++ [i]) s')
    (hP : Along step P s is) : ∃ s', exec step s is = .ok s' ∧ I is s' := by
  induction is using List.reverseRecOn with
  | nil => exact ⟨s, rfl, hI⟩
  | append_singleton is i ih =>
    obtain ⟨s₁, h₁, hI₁⟩ := ih (fun done i s hd => hstep done i s (hd.trans (List.prefix_append _ _))) hP.prefix
    obtain ⟨s₂, h₂, hI₂⟩ := hstep is i s₁ (List.prefix_refl _) hI₁ (hP.suffix h₁).1
    exact ⟨s₂, exec_append.mpr ⟨s₁, h₁, by rw [exec_cons_ok h₂, exec_nil]⟩, hI₂⟩

/-- When every step can be taken, every run ends. -/
theorem exec_ok (hstep : ∀ s i, ∃ s', step s i = .ok s') (s : σ) (is : List ι) : ∃ s', exec step s is = .ok s' := by
  induction is generalizing s with
  | nil => exact ⟨s, rfl⟩
  | cons i is ih =>
    obtain ⟨s₁, hs⟩ := hstep s i
    obtain ⟨s', h⟩ := ih s₁
    exact ⟨s', (exec_cons_ok hs).trans h⟩

/-! ## Two machines -/

section

variable {τ : Type*}

/-- Two outcomes agree: both are the same failure, or both are states, which are related. -/
def Agree (R : σ → τ → Prop) : Except ε σ → Except ε τ → Prop
  | .ok s, .ok t => R s t
  | .error e, .error e' => e = e'
  | .ok _, .error _ | .error _, .ok _ => False

variable {R : σ → τ → Prop}

/-- Where the second is a state the first is. -/
theorem Agree.exists_left {x : Except ε σ} {y : Except ε τ} {t : τ} (h : Agree R x y) (hy : y = .ok t) : ∃ s, x = .ok s ∧ R s t := by
  subst hy
  cases x with
  | ok s => exact ⟨s, rfl, h⟩
  | error e => exact absurd h id

/-- Functions of what agrees. -/
theorem Agree.map {σ' τ' : Type*} {R' : σ' → τ' → Prop} {f : σ → σ'} {g : τ → τ'} {x : Except ε σ} {y : Except ε τ} (h : Agree R x y)
    (hfg : ∀ s t, R s t → R' (f s) (g t)) : Agree R' (x.map f) (y.map g) := by
  cases x with
  | ok s =>
    cases y with
    | ok t => exact hfg s t h
    | error e => exact absurd h id
  | error e =>
    cases y with
    | ok t => exact absurd h id
    | error e' => exact h

theorem Agree.map_right {τ' : Type*} {R' : σ → τ' → Prop} {g : τ → τ'} {x : Except ε σ} {y : Except ε τ} (h : Agree R x y)
    (hg : ∀ s t, R s t → R' s (g t)) : Agree R' x (y.map g) := by
  have hmap : Agree R' (x.map id) (y.map g) := h.map hg
  cases x <;> exact hmap

/-- A weaker relation. -/
theorem Agree.mono {R' : σ → τ → Prop} {x : Except ε σ} {y : Except ε τ} (h : Agree R x y) (hR : ∀ s t, R s t → R' s t) : Agree R' x y := by
  have hmap : Agree R' x (y.map id) := h.map_right hR
  cases y <;> exact hmap

/-- Machines whose steps agree in related states run in agreement: neither of them can do what the other does not. -/
theorem exec_agree {step' : τ → ι → Except ε τ} (hstep : ∀ s t i, R s t → Agree R (step s i) (step' t i)) {t : τ} (h : R s t) :
    Agree R (exec step s is) (exec step' t is) := by
  induction is generalizing s t with
  | nil => exact h
  | cons i is ih =>
    have hi := hstep s t i h
    unfold exec
    cases ht : step' t i with
    | ok t' =>
      obtain ⟨s', hs, h'⟩ := hi.exists_left ht
      rw [hs]
      exact ih h'
    | error e =>
      rw [ht] at hi
      cases hs : step s i with
      | ok s' =>
        rw [hs] at hi
        exact absurd hi id
      | error e' =>
        rw [hs] at hi
        exact hi

end

end Runs
