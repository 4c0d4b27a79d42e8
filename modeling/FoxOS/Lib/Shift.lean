import Mathlib.Data.List.GetD
import Mathlib.Logic.Function.Basic

/-!
# FoxOS.Lib.Shift — insertion and removal in an array by shifting loops

An array of `cap` cells is a function `ℕ → α`; an access outside it is the fault `e`.  `shiftDown` is the
loop `for (i = a; i < b; i++) m[i] = m[i + 1]`, `shiftUp` the loop `for (i = b; i > a; i--) m[i] = m[i - 1]`.
`Holds cap z m l` says that the array holds the list `l` and the filler `z` behind it; removing with
`shiftDown` and inserting with `shiftUp` are `left ++ right` and `left ++ c :: right`.
-/

namespace Shift

variable {α ε : Type*}

section Defs

variable (cap : ℕ) (e : ε)

/-- `n` rounds of `m[i] = m[i + 1]`, from `i` upwards. -/
def shiftDown : ℕ → ℕ → (ℕ → α) → Except ε (ℕ → α)
  | 0, _, m => .ok m
  | n + 1, i, m =>
    if i + 1 < cap then shiftDown n (i + 1) (Function.update m i (m (i + 1))) else .error e

/-- `n` rounds of `m[i] = m[i - 1]`, from `i` downwards. -/
def shiftUp : ℕ → ℕ → (ℕ → α) → Except ε (ℕ → α)
  | 0, _, m => .ok m
  | n + 1, i, m => if i < cap then shiftUp n (i - 1) (Function.update m i (m (i - 1))) else .error e

/-- `m[i] = x`. -/
def storeAt (i : ℕ) (x : α) (m : ℕ → α) : Except ε (ℕ → α) :=
  if i < cap then .ok (Function.update m i x) else .error e

/-- The first `n` cells. -/
def readAll (n : ℕ) (m : ℕ → α) : Except ε (List α) :=
  if n ≤ cap then .ok ((List.range n).map m) else .error e

/-- The array holds `l`, and `z` behind it. -/
def Holds (z : α) (m : ℕ → α) (l : List α) : Prop := ∀ j < cap, m j = l.getD j z

end Defs

variable {cap : ℕ} {e : ε} {z c : α} {m : ℕ → α} {l left right : List α}

/-! ### The loops -/

theorem shiftDown_eq : ∀ (n i : ℕ) (m : ℕ → α), i + n < cap →
    shiftDown cap e n i m = .ok (fun j => if i ≤ j ∧ j < i + n then m (j + 1) else m j) := by
  intro n
  induction n with
  | zero =>
    intro i m _
    refine congrArg Except.ok (funext fun j => ?_)
    rw [if_neg (by omega)]
  | succ n ih =>
    intro i m hlt
    rw [shiftDown, if_pos (by omega), ih (i + 1) _ (by omega)]
    refine congrArg Except.ok (funext fun j => ?_)
    by_cases hj : j = i
    · subst hj
      rw [if_neg (by omega), if_pos (by omega), Function.update_self]
    · by_cases hin : i + 1 ≤ j ∧ j < i + 1 + n
      · rw [if_pos hin, if_pos (by omega), Function.update_of_ne (by omega)]
      · rw [if_neg hin, if_neg (by omega), Function.update_of_ne hj]

theorem shiftUp_eq : ∀ (n i : ℕ) (m : ℕ → α), i < cap → n ≤ i →
    shiftUp cap e n i m = .ok (fun j => if i < j + n ∧ j ≤ i then m (j - 1) else m j) := by
  intro n
  induction n with
  | zero =>
    intro i m _ _
    refine congrArg Except.ok (funext fun j => ?_)
    rw [if_neg (by omega)]
  | succ n ih =>
    intro i m hi hn
    rw [shiftUp, if_pos hi, ih (i - 1) _ (by omega) (by omega)]
    refine congrArg Except.ok (funext fun j => ?_)
    by_cases hj : j = i
    · subst hj
      rw [if_neg (by omega), if_pos (by omega), Function.update_self]
    · by_cases hin : i - 1 < j + n ∧ j ≤ i - 1
      · rw [if_pos hin, if_pos (by omega), Function.update_of_ne (by omega)]
      · rw [if_neg hin, if_neg (by omega), Function.update_of_ne hj]

/-! ### Lists in an array -/

theorem holds_nil (h : ∀ j < cap, m j = z) : Holds cap z m [] := by
  intro j hj
  rw [h j hj, List.getD_nil]

/-- The cells of the list can be read back. -/
theorem Holds.readAll (h : Holds cap z m l) (hl : l.length ≤ cap) :
    readAll cap e l.length m = .ok l := by
  unfold Shift.readAll
  rw [if_pos hl]
  refine congrArg Except.ok (List.ext_getElem (by simp) fun j h1 h2 => ?_)
  have hj : j < l.length := by simpa using h1
  rw [List.getElem_map, List.getElem_range, h j (by omega), List.getD_eq_getElem _ _ hj]

/-- **Removing**: the loop closes the gap and the last cell is cleared. -/
theorem Holds.remove (h : Holds cap z m (left ++ c :: right)) (hl : (left ++ c :: right).length < cap) :
    ∃ m₁ m₂, shiftDown cap e (left.length + right.length - left.length) left.length m = .ok m₁ ∧
      storeAt cap e (left.length + right.length) z m₁ = .ok m₂ ∧ Holds cap z m₂ (left ++ right) := by
  have hlen : left.length + right.length + 1 < cap := by
    simp only [List.length_append, List.length_cons] at hl
    omega
  refine ⟨_, _, shiftDown_eq _ _ _ (by omega), if_pos (by omega), fun j hj => ?_⟩
  by_cases hlast : j = left.length + right.length
  · subst hlast
    rw [Function.update_self, List.getD_eq_default _ _ (by simp)]
  rw [Function.update_of_ne hlast]
  by_cases hin : left.length ≤ j ∧ j < left.length + (left.length + right.length - left.length)
  · rw [if_pos hin, h (j + 1) (by omega), List.getD_append_right _ _ _ _ (by omega),
      List.getD_append_right _ _ _ _ hin.1, Nat.sub_add_comm hin.1, List.getD_cons_succ]
  · rw [if_neg hin, h j hj]
    by_cases hjl : j < left.length
    · rw [List.getD_append _ _ _ _ hjl, List.getD_append _ _ _ _ hjl]
    · rw [List.getD_eq_default _ _ (by simp only [List.length_append, List.length_cons]; omega),
        List.getD_eq_default _ _ (by simp only [List.length_append]; omega)]

/-- **Inserting**: the loop opens a gap and the new element fills it. -/
theorem Holds.insert (h : Holds cap z m (left ++ right)) (hl : (left ++ right).length < cap) (c : α) :
    ∃ m₁ m₂, shiftUp cap e (left.length + right.length - left.length) (left.length + right.length) m = .ok m₁ ∧
      storeAt cap e left.length c m₁ = .ok m₂ ∧ Holds cap z m₂ (left ++ c :: right) := by
  rw [List.length_append] at hl
  refine ⟨_, _, shiftUp_eq _ _ _ (by omega) (by omega), if_pos (by omega), fun j hj => ?_⟩
  by_cases hgap : j = left.length
  · subst hgap
    rw [Function.update_self, List.getD_append_right _ _ _ _ (Nat.le_refl _), Nat.sub_self,
      List.getD_cons_zero]
  rw [Function.update_of_ne hgap]
  by_cases hjl : j < left.length
  · rw [if_neg (by omega), h j hj, List.getD_append _ _ _ _ hjl, List.getD_append _ _ _ _ hjl]
  -- behind the gap every cell comes from the cell before it
  obtain ⟨i, rfl⟩ : ∃ i, j = left.length + i + 1 := ⟨j - left.length - 1, by omega⟩
  rw [List.getD_append_right _ _ _ _ (by omega),
    show left.length + i + 1 - left.length = i + 1 by omega, List.getD_cons_succ]
  by_cases hi : i < right.length
  · rw [if_pos (by omega), h _ (by omega), List.getD_append_right _ _ _ _ (by omega)]
    congr 1
    omega
  · rw [if_neg (by omega), h _ hj, List.getD_eq_default _ _ (by simp only [List.length_append]; omega),
      List.getD_eq_default _ _ (by omega)]

end Shift
