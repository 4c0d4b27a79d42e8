import Mathlib.Data.List.Induction

/-!
# FoxOS.Lib.Mealy — machines with one output per input

`step s i` is the next state and the output.  `after step s is` is the state behind a word, `outputs step s is`
the word of the outputs.  `Settles step z`: an input that is repeated at once changes nothing more and gives the
silent output `z`; such a machine does not see how often its inputs are repeated (`stutter_after`,
`stutter_outputs`). `prefix_iff`: a step condition that is exact for an invariant, step by step, is exact for
whole words.
-/

namespace Mealy

variable {σ ι ω : Type*}

section Defs

variable (step : σ → ι → σ × ω)

/-- The state behind a word. -/
def after (s : σ) (is : List ι) : σ := is.foldl (fun s i => (step s i).1) s

/-- The outputs of a word. -/
def outputs : σ → List ι → List ω
  | _, [] => []
  | s, i :: is => (step s i).2 :: outputs (step s i).1 is

/-- A repeated input is absorbed: the state stays and the output is `z`. -/
def Settles (z : ω) : Prop := ∀ s i, step (step s i).1 i = ((step s i).1, z)

/-- Each input with the number of its repetitions behind the first one. -/
def stutter (l : List (ι × ℕ)) : List ι := l.flatMap fun p => List.replicate (p.2 + 1) p.1

end Defs

variable {step : σ → ι → σ × ω} {s : σ} {i : ι} {is js : List ι}

@[simp] theorem after_nil : after step s [] = s := rfl
@[simp] theorem after_cons : after step s (i :: is) = after step (step s i).1 is := rfl
@[simp] theorem outputs_nil : outputs step s [] = [] := rfl
@[simp] theorem outputs_cons : outputs step s (i :: is) = (step s i).2 :: outputs step (step s i).1 is := rfl

theorem after_append : after step s (is ++ js) = after step (after step s is) js := List.foldl_append

theorem outputs_append :
    outputs step s (is ++ js) = outputs step s is ++ outputs step (after step s is) js := by
  induction is generalizing s with
  | nil => rfl
  | cons i is ih => rw [List.cons_append, outputs_cons, outputs_cons, after_cons, ih, List.cons_append]

/-! ### Stuttering -/

section Stutter

variable {z : ω} (h : Settles step z)
include h

theorem Settles.repeat (n : ℕ) : after step (step s i).1 (List.replicate n i) = (step s i).1 ∧
    outputs step (step s i).1 (List.replicate n i) = List.replicate n z := by
  induction n with
  | zero => exact ⟨rfl, rfl⟩
  | succ n ih =>
    rw [List.replicate_succ, List.replicate_succ, after_cons, outputs_cons, h s i]
    exact ⟨ih.1, congrArg (z :: ·) ih.2⟩

/-- The state behind a word does not depend on repetitions. -/
theorem stutter_after (l : List (ι × ℕ)) : after step s (stutter l) = after step s (l.map Prod.fst) := by
  induction l generalizing s with
  | nil => rfl
  | cons p l ih =>
    rw [stutter, List.flatMap_cons, List.map_cons, List.replicate_succ, List.cons_append,
      after_cons, after_cons, after_append, (h.repeat p.2).1]
    exact ih

/-- The outputs other than the silent one do not depend on repetitions. -/
theorem stutter_outputs [DecidableEq ω] (l : List (ι × ℕ)) :
    (outputs step s (stutter l)).filter (· ≠ z) = (outputs step s (l.map Prod.fst)).filter (· ≠ z) := by
  induction l generalizing s with
  | nil => rfl
  | cons p l ih =>
    have hsilent : (List.replicate p.2 z).filter (· ≠ z) = [] := by
      rw [List.filter_eq_nil_iff]
      intro o ho
      simp [List.eq_of_mem_replicate ho]
    have hout : outputs step s (stutter (p :: l)) =
        [(step s p.1).2] ++ (List.replicate p.2 z ++ outputs step (step s p.1).1 (stutter l)) := by
      rw [stutter, List.flatMap_cons, List.replicate_succ, List.cons_append, outputs_cons, outputs_append,
        (h.repeat p.2).1, (h.repeat p.2).2]
      rfl
    rw [hout, List.filter_append, List.filter_append, hsilent, List.nil_append, ih, ← List.filter_append]
    rfl

end Stutter

/-! ### Exact step conditions -/

/-- If a step keeps `I` exactly when it meets `G`, then `I` holds behind every prefix of a word exactly when
every step of the word meets `G`.  `P` is what is known of every step. -/
theorem prefix_iff {w : List ι} {f : σ → ι → σ} {I : σ → Prop} {P G : σ → ι → Prop}
    (hstep : ∀ s i, I s → P s i → (I (f s i) ↔ G s i)) (h0 : I s)
    (hP : ∀ pre i, pre ++ [i] <+: w → P (pre.foldl f s) i) :
    (∀ pre, pre <+: w → I (pre.foldl f s)) ↔ ∀ pre i, pre ++ [i] <+: w → G (pre.foldl f s) i := by
  constructor
  · intro hI pre i hpre
    have hpre' : pre <+: w := List.IsPrefix.trans (List.prefix_append _ _) hpre
    have hnext := hI _ hpre
    rw [List.foldl_append] at hnext
    exact (hstep _ i (hI pre hpre') (hP pre i hpre)).mp hnext
  · intro hG pre
    -- by induction on the prefix from its end: its last step meets the condition
    induction pre using List.reverseRecOn with
    | nil => exact fun _ => h0
    | append_singleton pre i ih =>
      intro hpre
      have hpre' : pre <+: w := List.IsPrefix.trans (List.prefix_append _ _) hpre
      rw [List.foldl_append]
      exact (hstep _ i (ih hpre') (hP pre i hpre)).mpr (hG pre i hpre)

end Mealy
