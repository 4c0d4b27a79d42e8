import Mathlib.Data.List.TakeWhile
import Mathlib.Data.Nat.Init

/-!
# FoxOS.Lib.Segs — the non-empty segments between separators

`segs a l` is the list of the non-empty maximal runs of `l` without the separator `a`.  Leading,
repeated and trailing separators do not show in it.  `segs_scan` describes the first segment in
the way a scanner finds it (skip separators, then read up to the next one); `segs_join` says that
the segments of a joined list are the joined words.
-/

namespace Segs

variable {α : Type*} [DecidableEq α] {a : α}

/-- The non-empty segments of `l` between occurrences of `a`. -/
def segs (a : α) (l : List α) : List (List α) := (l.splitOn a).filter (fun w => decide (w ≠ []))

@[simp] theorem segs_nil : segs a [] = [] := by simp [segs]

theorem segs_append_sep (l m : List α) : segs a (l ++ a :: m) = segs a l ++ segs a m := by
  simp [segs, List.splitOn_append_cons_self]

@[simp] theorem segs_sep_cons (l : List α) : segs a (a :: l) = segs a l := by
  simpa using segs_append_sep (a := a) [] l

theorem segs_of_not_mem {w : List α} (hw : a ∉ w) (hne : w ≠ []) : segs a w = [w] := by
  simp [segs, List.splitOn_eq_singleton hw, hne]

theorem segs_append_word {w : List α} (hw : a ∉ w) (hne : w ≠ []) (l : List α) :
    segs a (w ++ a :: l) = w :: segs a l := by
  rw [segs_append_sep, segs_of_not_mem hw hne, List.singleton_append]

/-- Leading separators do not show. -/
theorem segs_replicate_append (k : ℕ) (l : List α) : segs a (List.replicate k a ++ l) = segs a l := by
  induction k with
  | zero => rfl
  | succ k ih => rw [List.replicate_succ, List.cons_append, segs_sep_cons, ih]

/-- A run of separators is one separator. -/
theorem segs_append_replicate (k : ℕ) (l m : List α) :
    segs a (l ++ (List.replicate (k + 1) a ++ m)) = segs a l ++ segs a m := by
  rw [List.replicate_succ, List.cons_append, segs_append_sep, segs_replicate_append]

/-- Trailing separators do not show. -/
theorem segs_append_seps (l : List α) (k : ℕ) : segs a (l ++ List.replicate k a) = segs a l := by
  cases k with
  | zero => rw [List.replicate_zero, List.append_nil]
  | succ k => simpa using segs_append_replicate k l []

/-- Skipping leading separators changes nothing. -/
theorem segs_dropWhile (l : List α) : segs a (l.dropWhile (fun x => decide (x = a))) = segs a l := by
  induction l with
  | nil => rfl
  | cons x l ih =>
    by_cases hx : x = a
    · subst hx
      rw [List.dropWhile_cons_of_pos (by simp), ih, segs_sep_cons]
    · rw [List.dropWhile_cons_of_neg (by simpa using hx)]

theorem not_mem_takeWhile_ne (l : List α) : a ∉ l.takeWhile (fun x => decide (x ≠ a)) := by
  intro h
  have := List.mem_takeWhile_imp h
  simp at this

/-- **The scanner's step**: a list that does not start with a separator is its first segment,
followed by what stands after it. -/
theorem segs_scan {l : List α} (hl : l ≠ []) (hh : l.head? ≠ some a) :
    segs a l = l.takeWhile (fun x => decide (x ≠ a)) :: segs a (l.dropWhile (fun x => decide (x ≠ a))) := by
  obtain ⟨x, t, rfl⟩ := List.exists_cons_of_ne_nil hl
  have hx : x ≠ a := by simpa using hh
  have hne : (x :: t).takeWhile (fun x => decide (x ≠ a)) ≠ [] := by simp [hx]
  have hnm := not_mem_takeWhile_ne (a := a) (x :: t)
  have hsplit := List.takeWhile_append_dropWhile (p := fun x => decide (x ≠ a)) (l := x :: t)
  cases hd : (x :: t).dropWhile (fun x => decide (x ≠ a)) with
  | nil =>
    rw [hd, List.append_nil] at hsplit
    rw [hsplit] at hnm ⊢
    rw [segs_of_not_mem hnm hl, segs_nil]
  | cons y r =>
    -- the scan stopped at `y`, so `y` is the separator
    have hy : y = a := by
      have := List.head?_dropWhile_not (fun x => decide (x ≠ a)) (x :: t)
      rw [hd] at this
      simpa using this
    subst hy
    calc segs y (x :: t) = segs y ((x :: t).takeWhile (fun x => decide (x ≠ y)) ++ y :: r) := by
          rw [← hd, hsplit]
      _ = _ := by rw [segs_append_word hnm hne, segs_sep_cons]

theorem segs_spec {l w : List α} (h : w ∈ segs a l) : a ∉ w ∧ w ≠ [] ∧ w ⊆ l := by
  obtain ⟨n, hn⟩ : ∃ n, l.length = n := ⟨_, rfl⟩
  induction n using Nat.strong_induction_on generalizing l with
  | _ n ih =>
  cases l with
  | nil => simp at h
  | cons x t =>
    by_cases hx : x = a
    · subst hx
      rw [segs_sep_cons] at h
      obtain ⟨h1, h2, h3⟩ := ih t.length (by simp at hn; omega) h rfl
      exact ⟨h1, h2, fun y hy => List.mem_cons_of_mem _ (h3 hy)⟩
    · rw [segs_scan (by simp) (by simpa using hx)] at h
      rcases List.mem_cons.mp h with rfl | h
      · exact ⟨not_mem_takeWhile_ne _, by simp [hx], (List.takeWhile_prefix _).subset⟩
      · have hlen : ((x :: t).dropWhile (fun x => decide (x ≠ a))).length < n := by
          rw [List.dropWhile_cons_of_pos (by simpa using hx)]
          have := (List.dropWhile_suffix (l := t) (fun x => decide (x ≠ a))).length_le
          simp at hn
          omega
        obtain ⟨h1, h2, h3⟩ := ih _ hlen h rfl
        exact ⟨h1, h2, fun y hy => (List.dropWhile_suffix _).subset (h3 hy)⟩

omit [DecidableEq α] in
theorem length_le_intercalate {w : List α} {ws : List (List α)} (h : w ∈ ws) :
    w.length ≤ ([a].intercalate ws).length := by
  induction ws with
  | nil => exact absurd h List.not_mem_nil
  | cons u us ih =>
    cases us with
    | nil => simp_all
    | cons v us =>
      rcases List.mem_cons.mp h with rfl | h
      · simp [List.intercalate]
      · have := ih h
        simp only [List.intercalate, List.intersperse_cons_cons, List.flatten_cons,
          List.length_append] at this ⊢
        omega

theorem segs_length_le {l w : List α} (h : w ∈ segs a l) : w.length ≤ l.length := by
  have hle := length_le_intercalate (a := a) (List.mem_filter.mp h).1
  rwa [List.intercalate_splitOn] at hle

/-- The segments of words joined with a leading separator each are the words. -/
theorem segs_join {ws : List (List α)} (h : ∀ w ∈ ws, a ∉ w ∧ w ≠ []) :
    segs a (ws.flatMap (a :: ·)) = ws := by
  induction ws with
  | nil => simp
  | cons w ws ih =>
    obtain ⟨h1, h2⟩ := h w (by simp)
    have ih' := ih (fun u hu => h u (by simp [hu]))
    rw [List.flatMap_cons, List.cons_append, segs_sep_cons]
    cases ws with
    | nil => simp [segs_of_not_mem h1 h2]
    | cons v ws =>
      rw [List.flatMap_cons, List.cons_append, segs_sep_cons] at ih'
      rw [List.flatMap_cons, List.cons_append, segs_append_word h1 h2, ih']

end Segs
