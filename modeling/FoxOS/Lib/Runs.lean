import Mathlib.Data.List.Basic

/-!
# FoxOS.Lib.Runs — runs of a fallible step function

`exec step s is` feeds the inputs `is` to `step` one after another and stops at the first fault.
`AllSteps step G s is` says that every step the run really takes meets `G` (a condition on the
state before the step and on the input).  The rules: an invariant kept by the guarded steps holds at
the end of a run (`exec_inv`), steps that never fault give runs that never fault (`exec_total`), an
abstract step that follows each step follows the run (`exec_sim`), and a relation kept by pairs of steps
is kept by pairs of runs (`exec_rel`).  `trace step obs s is` is what an observer of the single steps sees of a
run; an invariant may speak of it (`exec_trace`), and a run that faults has seen its last step (`exec_fault`).
-/

namespace Runs

variable {σ τ ι ε ω : Type*}

/-- Run the inputs in order; the last state, or the first fault. -/
def exec (step : σ → ι → Except ε σ) : σ → List ι → Except ε σ
  | s, [] => .ok s
  | s, i :: is =>
    match step s i with
    | .ok s₁ => exec step s₁ is
    | .error e => .error e

/-- Every step of the run from `s` meets `G`. -/
def AllSteps (step : σ → ι → Except ε σ) (G : σ → ι → Prop) : σ → List ι → Prop
  | _, [] => True
  | s, i :: is => G s i ∧ ∀ s₁, step s i = .ok s₁ → AllSteps step G s₁ is

/-- What is observed of a run: `obs s i` of every step that is taken, also of one that faults. -/
def trace (step : σ → ι → Except ε σ) (obs : σ → ι → List ω) : σ → List ι → List ω
  | _, [] => []
  | s, i :: is =>
    obs s i ++
      match step s i with
      | .ok s₁ => trace step obs s₁ is
      | .error _ => []

/-- Two results are related: the same fault, or related states. -/
inductive Rel (R : σ → τ → Prop) : Except ε σ → Except ε τ → Prop
  | ok {s : σ} {t : τ} : R s t → Rel R (.ok s) (.ok t)
  | error (e : ε) : Rel R (.error e) (.error e)

variable {step : σ → ι → Except ε σ} {G : σ → ι → Prop} {s s' : σ} {i : ι} {is js : List ι}

theorem Rel.bind {σ' τ' : Type*} {R : σ → τ → Prop} {Q : σ' → τ' → Prop} {x : Except ε σ} {y : Except ε τ}
    {f : σ → Except ε σ'} {g : τ → Except ε τ'} (h : Rel R x y) (hfg : ∀ a b, R a b → Rel Q (f a) (g b)) :
    Rel Q (x.bind f) (y.bind g) := by
  cases h with
  | ok hR => exact hfg _ _ hR
  | error e => exact .error e

/-- Two computations that start with the same one. -/
theorem Rel.bind_same {ρ σ' τ' : Type*} {Q : σ' → τ' → Prop} {x : Except ε ρ} {f : ρ → Except ε σ'}
    {g : ρ → Except ε τ'} (hfg : ∀ a, x = .ok a → Rel Q (f a) (g a)) : Rel Q (x.bind f) (x.bind g) := by
  cases x with
  | ok a => exact hfg a rfl
  | error e => exact .error e

@[simp] theorem exec_nil : exec step s [] = .ok s := rfl

theorem exec_cons_ok {s₁ : σ} (h : step s i = .ok s₁) :
    exec step s (i :: is) = exec step s₁ is := by
  simp [exec, h]

theorem exec_cons_eq_ok :
    exec step s (i :: is) = .ok s' ↔ ∃ s₁, step s i = .ok s₁ ∧ exec step s₁ is = .ok s' := by
  cases h : step s i with
  | error e => simp [exec, h]
  | ok s₁ => simp [exec, h]

theorem exec_cons : exec step s (i :: is) = (step s i).bind fun s₁ => exec step s₁ is := by
  rw [exec]
  cases step s i <;> rfl

theorem exec_singleton : exec step s [i] = step s i := by
  rw [exec_cons]
  cases step s i <;> rfl

theorem exec_append : exec step s (is ++ js) = (exec step s is).bind fun s₁ => exec step s₁ js := by
  induction is generalizing s with
  | nil => rfl
  | cons i is ih =>
    rw [List.cons_append, exec_cons, exec_cons]
    cases step s i with
    | error e => rfl
    | ok s₁ => exact ih

theorem exec_append_eq_ok :
    exec step s (is ++ js) = .ok s' ↔
      ∃ s₁, exec step s is = .ok s₁ ∧ exec step s₁ js = .ok s' := by
  induction is generalizing s with
  | nil => simp
  | cons i is ih =>
    rw [List.cons_append, exec_cons_eq_ok]
    constructor
    · rintro ⟨s₁, h1, h2⟩
      obtain ⟨s₂, h3, h4⟩ := ih.mp h2
      exact ⟨s₂, exec_cons_eq_ok.mpr ⟨s₁, h1, h3⟩, h4⟩
    · rintro ⟨s₂, h1, h2⟩
      obtain ⟨s₁, h3, h4⟩ := exec_cons_eq_ok.mp h1
      exact ⟨s₁, h3, ih.mpr ⟨s₂, h4, h2⟩⟩

theorem exec_snoc_eq_ok :
    exec step s (is ++ [i]) = .ok s' ↔ ∃ s₁, exec step s is = .ok s₁ ∧ step s₁ i = .ok s' := by
  rw [exec_append_eq_ok]
  refine exists_congr fun s₁ => and_congr_right fun _ => ?_
  rw [exec_cons_eq_ok]
  simp

theorem exec_append_of_error {e : ε} (h : exec step s is = .error e) (js : List ι) :
    exec step s (is ++ js) = .error e := by
  rw [exec_append, h]
  rfl

/-! ### Traces -/

section Trace

variable {obs : σ → ι → List ω}

theorem trace_cons_ok {s₁ : σ} (h : step s i = .ok s₁) :
    trace step obs s (i :: is) = obs s i ++ trace step obs s₁ is := by
  simp [trace, h]

theorem trace_singleton : trace step obs s [i] = obs s i := by
  simp only [trace]
  cases step s i with
  | ok s₁ => exact List.append_nil _
  | error e => exact List.append_nil _

theorem trace_append {s₁ : σ} (h : exec step s is = .ok s₁) :
    trace step obs s (is ++ js) = trace step obs s is ++ trace step obs s₁ js := by
  induction is generalizing s with
  | nil =>
    cases h
    rfl
  | cons i is ih =>
    obtain ⟨s₂, h1, h2⟩ := exec_cons_eq_ok.mp h
    rw [List.cons_append, trace_cons_ok h1, trace_cons_ok h1, ih h2, List.append_assoc]

/-- **Invariant rule with a history**: `I` speaks of the inputs so far and of what was observed. -/
theorem exec_trace {I : List ι → List ω → σ → Prop} (obs : σ → ι → List ω)
    (hI : ∀ js log s i s₁, I js log s → step s i = .ok s₁ → I (js ++ [i]) (log ++ obs s i) s₁) :
    ∀ {is js : List ι} {log : List ω} {s s' : σ}, I js log s → exec step s is = .ok s' →
      I (js ++ is) (log ++ trace step obs s is) s'
  | [], js, log, s, s', h0, h => by
    cases h
    rwa [List.append_nil, trace, List.append_nil]
  | i :: is, js, log, s, s', h0, h => by
    obtain ⟨s₁, h1, h2⟩ := exec_cons_eq_ok.mp h
    have hrest := exec_trace obs hI (hI js log s i s₁ h0 h1) h2
    rwa [List.append_assoc, List.append_assoc, ← trace_cons_ok h1] at hrest

/-- **A run that faults** ends with the step that faults. -/
theorem exec_fault {e : ε} (obs : σ → ι → List ω) (h : exec step s is = .error e) :
    ∃ pre i post s₁, is = pre ++ i :: post ∧ exec step s pre = .ok s₁ ∧ step s₁ i = .error e ∧
      trace step obs s is = trace step obs s pre ++ obs s₁ i := by
  induction is generalizing s with
  | nil => cases h
  | cons i is ih =>
    cases h1 : step s i with
    | error e' =>
      rw [exec_cons, h1] at h
      cases h
      exact ⟨[], i, is, s, rfl, rfl, h1, by simp [trace, h1]⟩
    | ok s₁ =>
      rw [exec_cons_ok h1] at h
      obtain ⟨pre, j, post, s₂, rfl, hpre, hj, htrace⟩ := ih h
      refine ⟨i :: pre, j, post, s₂, rfl, by rw [exec_cons_ok h1, hpre], hj, ?_⟩
      rw [trace_cons_ok h1, htrace, trace_cons_ok h1, List.append_assoc]

end Trace

/-- Inputs that change nothing can be left out. -/
theorem exec_filter_silent [DecidableEq ι] {z : ι} (hz : ∀ s, step s z = .ok s) (is : List ι) (s : σ) :
    exec step s (is.filter (· ≠ z)) = exec step s is := by
  induction is generalizing s with
  | nil => rfl
  | cons i is ih =>
    by_cases hi : i = z
    · rw [List.filter_cons_of_neg (by simpa using hi), ih, hi, exec_cons_ok (hz s)]
    · rw [List.filter_cons_of_pos (by simpa using hi), exec, exec]
      cases step s i with
      | error e => rfl
      | ok s₁ => exact ih s₁

theorem allSteps_of_forall {P : ι → Prop} (h : ∀ i ∈ is, P i) :
    AllSteps step (fun _ i => P i) s is := by
  induction is generalizing s with
  | nil => trivial
  | cons i is ih =>
    exact ⟨h i (by simp), fun s₁ _ => ih (fun j hj => h j (by simp [hj]))⟩

/-- A condition that follows from another one wherever the guarded run comes to. -/
theorem allSteps_imp {H : σ → ι → Prop} {I : σ → Prop} {P : ι → Prop} (h : ∀ s i, I s → P i → G s i → H s i)
    (hI : ∀ s i s₁, I s → P i → G s i → step s i = .ok s₁ → I s₁) (h0 : I s) (hP : ∀ i ∈ is, P i)
    (hG : AllSteps step G s is) : AllSteps step H s is := by
  induction is generalizing s with
  | nil => trivial
  | cons i is ih =>
    have hi := hP i (by simp)
    refine ⟨h s i h0 hi hG.1, fun s₁ h1 => ?_⟩
    exact ih (hI s i s₁ h0 hi hG.1 h1) (fun j hj => hP j (List.mem_cons_of_mem i hj)) (hG.2 s₁ h1)

theorem allSteps_congr {H : σ → ι → Prop} {I : σ → Prop} {P : ι → Prop} (h : ∀ s i, I s → P i → (G s i ↔ H s i))
    (hI : ∀ s i s₁, I s → P i → G s i → step s i = .ok s₁ → I s₁) (h0 : I s) (hP : ∀ i ∈ is, P i) :
    AllSteps step G s is ↔ AllSteps step H s is := by
  constructor
  · exact allSteps_imp (fun s i hs hi => (h s i hs hi).mp) hI h0 hP
  · exact allSteps_imp (fun s i hs hi => (h s i hs hi).mpr)
      (fun s i s₁ hs hi hH => hI s i s₁ hs hi ((h s i hs hi).mpr hH)) h0 hP

theorem allSteps_and {H : σ → ι → Prop} (h : AllSteps step G s is) (h' : AllSteps step H s is) :
    AllSteps step (fun s i => G s i ∧ H s i) s is := by
  induction is generalizing s with
  | nil => trivial
  | cons i is ih => exact ⟨⟨h.1, h'.1⟩, fun s₁ h1 => ih (h.2 s₁ h1) (h'.2 s₁ h1)⟩

/-- The steps of a longer run: those of the shorter one, and the last. -/
theorem allSteps_snoc : AllSteps step G s (is ++ [i]) ↔
    AllSteps step G s is ∧ ∀ s', exec step s is = .ok s' → G s' i := by
  induction is generalizing s with
  | nil =>
    constructor
    · intro h
      exact ⟨trivial, fun s' hs => by cases hs; exact h.1⟩
    · intro h
      exact ⟨h.2 s rfl, fun _ _ => trivial⟩
  | cons j is ih =>
    constructor
    · intro h
      refine ⟨⟨h.1, fun s₁ h1 => (ih.mp (h.2 s₁ h1)).1⟩, fun s' hs => ?_⟩
      obtain ⟨s₁, h1, h2⟩ := exec_cons_eq_ok.mp hs
      exact (ih.mp (h.2 s₁ h1)).2 s' h2
    · rintro ⟨h, hlast⟩
      refine ⟨h.1, fun s₁ h1 => ih.mpr ⟨h.2 s₁ h1, fun s' h2 => hlast s' ?_⟩⟩
      rw [exec_cons_ok h1, h2]

/-- **Invariant rule**: what the guarded steps keep holds at the end of every guarded run. -/
theorem exec_inv {I : σ → Prop} (hI : ∀ s i s₁, I s → G s i → step s i = .ok s₁ → I s₁) :
    ∀ {is : List ι} {s s' : σ}, I s → AllSteps step G s is → exec step s is = .ok s' → I s'
  | [], s, s', h0, _, h => by cases h; exact h0
  | i :: is, s, s', h0, hG, h => by
    obtain ⟨s₁, h1, h2⟩ := exec_cons_eq_ok.mp h
    exact exec_inv hI (hI s i s₁ h0 hG.1 h1) (hG.2 s₁ h1) h2

/-- **Progress rule**: if a guarded step from `I` never faults and keeps `I`, neither does a run. -/
theorem exec_total {I : σ → Prop} {P : ι → Prop}
    (hI : ∀ s i, I s → P i → ∃ s₁, step s i = .ok s₁ ∧ I s₁) :
    ∀ {is : List ι} {s : σ}, I s → (∀ i ∈ is, P i) → ∃ s', exec step s is = .ok s' ∧ I s'
  | [], s, h0, _ => ⟨s, rfl, h0⟩
  | i :: is, s, h0, hP => by
    obtain ⟨s₁, h1, h2⟩ := hI s i h0 (hP i (by simp))
    obtain ⟨s', h3, h4⟩ := exec_total hI h2 (fun j hj => hP j (List.mem_cons_of_mem i hj))
    exact ⟨s', by rw [exec_cons_ok h1, h3], h4⟩

/-- **Simulation rule**: a function that follows every step follows every run. -/
theorem exec_sim {f : τ → ι → τ} {R : τ → σ → Prop}
    (hR : ∀ t s i s₁, R t s → step s i = .ok s₁ → R (f t i) s₁) :
    ∀ {is : List ι} {t : τ} {s s' : σ}, R t s → exec step s is = .ok s' → R (is.foldl f t) s'
  | [], t, s, s', h0, h => by cases h; exact h0
  | i :: is, t, s, s', h0, h => by
    obtain ⟨s₁, h1, h2⟩ := exec_cons_eq_ok.mp h
    rw [List.foldl_cons]
    exact exec_sim hR (hR t s i s₁ h0 h1) h2

/-- **Two-run rule**: a relation kept by pairs of steps is kept by pairs of runs. -/
theorem exec_rel {stepS : σ → ι → Except ε σ} {stepT : τ → ι → Except ε τ} {R : σ → τ → Prop} {P : ι → Prop}
    (hR : ∀ s t i, P i → R s t → Rel R (stepS s i) (stepT t i)) :
    ∀ {is : List ι} {s : σ} {t : τ}, (∀ i ∈ is, P i) → R s t → Rel R (exec stepS s is) (exec stepT t is)
  | [], s, t, _, h => .ok h
  | i :: is, s, t, hP, h => by
    have h1 := hR s t i (hP i (by simp)) h
    simp only [exec]
    generalize stepS s i = x at h1 ⊢
    generalize stepT t i = y at h1 ⊢
    cases h1 with
    | error e => exact .error e
    | ok h2 => exact exec_rel hR (fun j hj => hP j (List.mem_cons_of_mem i hj)) h2

end Runs
