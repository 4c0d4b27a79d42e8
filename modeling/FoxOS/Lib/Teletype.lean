import Mathlib.Data.Nat.Basic
import Mathlib.Order.Lattice

/-!
# FoxOS.Lib.Teletype — a terminal with unboundedly many rows

A teletype writes into rows of `w` cells that never end; a window of `h` rows shows the part from `base` on.
The operations move the cursor and write cells of the unbounded rows; `settle` then wraps a cursor behind the
last column and moves the window down by the least amount that shows the cursor row (`follow_least`).  `Fits w h
t`: the cursor is a cell of the window.
-/

structure Teletype (α : Type*) where
  rows : ℕ → ℕ → α
  row : ℕ
  col : ℕ
  base : ℕ

namespace Teletype

variable {α : Type*} (w h : ℕ) (t : Teletype α)

/-- The cell in column `x` of row `y` of the window. -/
def window (y x : ℕ) : α := t.rows (t.base + y) x

/-- The cursor is in the window. -/
structure Fits : Prop where
  base_le : t.base ≤ t.row
  row_lt : t.row < t.base + h
  col_lt : t.col < w

/-- Go to the next row behind the last column. -/
def wrap : Teletype α := if w ≤ t.col then { t with row := t.row + 1, col := 0 } else t

/-- Move the window down until it shows the cursor row. -/
def follow : Teletype α := { t with base := max t.base (t.row + 1 - h) }

def settle : Teletype α := (t.wrap w).follow h

/-- Write the cell under the cursor. -/
def setCell (c : α) : Teletype α :=
  { t with rows := fun r x => if r = t.row ∧ x = t.col then c else t.rows r x }

/-! ### The operations -/

/-- A character fills a cell and moves on. -/
def put (c : α) : Teletype α := settle w h { t.setCell c with col := t.col + 1 }

def newline : Teletype α := settle w h { t with row := t.row + 1, col := 0 }

def carriageReturn : Teletype α := { t with col := 0 }

/-- On to the next multiple of 8. -/
def tab : Teletype α := settle w h { t with col := (t.col / 8 + 1) * 8 }

/-- Step back and blank the cell, also into the row above, but not out of the window. -/
def back (blank : α) : Teletype α :=
  if 0 < t.col then setCell { t with col := t.col - 1 } blank
  else if t.base < t.row then setCell { t with row := t.row - 1, col := w - 1 } blank
  else t

/-! ### Rules -/

variable {w h t}

/-- **The window moves as little as it can**: `follow` has the least base, not in front of the old one, that
shows the cursor row. -/
theorem follow_least : t.base ≤ (t.follow h).base ∧ t.row < (t.follow h).base + h ∧
    ∀ b, t.base ≤ b → t.row < b + h → (t.follow h).base ≤ b := by
  refine ⟨le_max_left _ _, ?_, fun b hb hrow => max_le hb (by omega)⟩
  show t.row < max t.base (t.row + 1 - h) + h
  omega

theorem follow_of_lt (hrow : t.row < t.base + h) : t.follow h = t := by
  unfold follow
  rw [max_eq_left (by omega)]

/-- One row below the window: the window moves by one. -/
theorem follow_of_eq (hrow : t.row = t.base + h) : t.follow h = { t with base := t.base + 1 } := by
  unfold follow
  rw [hrow, max_eq_right (by omega), show t.base + h + 1 - h = t.base + 1 by omega]

theorem wrap_of_lt (hcol : t.col < w) : t.wrap w = t := if_neg (Nat.not_le_of_lt hcol)

theorem wrap_of_le (hcol : w ≤ t.col) : t.wrap w = { t with row := t.row + 1, col := 0 } := if_pos hcol

theorem settle_of_fits (hf : Fits w h t) : t.settle w h = t := by
  rw [settle, wrap_of_lt hf.col_lt, follow_of_lt hf.row_lt]

theorem Fits.setCell (hf : Fits w h t) (c : α) : Fits w h (t.setCell c) := ⟨hf.base_le, hf.row_lt, hf.col_lt⟩

/-- A cursor that is not above the window is brought back into it. -/
theorem settle_fits (hw : 0 < w) (hh : 0 < h) (hbase : t.base ≤ t.row) : Fits w h (t.settle w h) := by
  have hwrap : (t.wrap w).base ≤ (t.wrap w).row ∧ (t.wrap w).col < w := by
    rcases Nat.lt_or_ge t.col w with hcol | hcol
    · rw [wrap_of_lt hcol]
      exact ⟨hbase, hcol⟩
    · rw [wrap_of_le hcol]
      exact ⟨Nat.le_succ_of_le hbase, hw⟩
  obtain ⟨-, hrow, hleast⟩ := follow_least (t := t.wrap w) (h := h)
  exact ⟨hleast _ hwrap.1 (Nat.lt_add_of_pos_right hh), hrow, hwrap.2⟩

end Teletype
