import FoxOS.Lib.Shift

/-!
# FoxOS.Lib.Zipper — a line with a gap, and its array

`Zipper` is a line that is edited at one place: `left` stands before the gap, `right` behind it.  The abstract
operations move the gap, remove a neighbour of it or fill it.  `Stored cap e z m size pos` says that an array of
`cap` cells with a size and a position is the line; for every operation there is a rule that says which loop
on the array carries it out (`Stored.backspace`, `Stored.delete`, `Stored.insert`).
-/

structure Zipper (α : Type*) where
  left : List α
  right : List α

namespace Zipper

open Shift

variable {α ε : Type*}

/-! ### The operations -/

def empty : Zipper α := ⟨[], []⟩

def toList (z : Zipper α) : List α := z.left ++ z.right

def moveLeft (z : Zipper α) : Zipper α :=
  match z.left.getLast? with
  | none => z
  | some c => ⟨z.left.dropLast, c :: z.right⟩

def moveRight (z : Zipper α) : Zipper α :=
  match z.right with
  | [] => z
  | c :: right => ⟨z.left ++ [c], right⟩

def backspace (z : Zipper α) : Zipper α := ⟨z.left.dropLast, z.right⟩

def delete (z : Zipper α) : Zipper α := ⟨z.left, z.right.tail⟩

/-- A full line stays as it is. -/
def insert (limit : ℕ) (c : α) (z : Zipper α) : Zipper α :=
  if z.left.length + z.right.length < limit then ⟨z.left ++ [c], z.right⟩ else z

variable {z : Zipper α} {c : α} {left right : List α}

theorem length_toList (z : Zipper α) : z.toList.length = z.left.length + z.right.length := List.length_append

@[simp] theorem moveLeft_snoc : moveLeft ⟨left ++ [c], right⟩ = ⟨left, c :: right⟩ := by
  simp [moveLeft]

@[simp] theorem moveLeft_nil : moveLeft ⟨[], right⟩ = ⟨[], right⟩ := rfl

@[simp] theorem moveRight_cons : moveRight ⟨left, c :: right⟩ = ⟨left ++ [c], right⟩ := rfl

@[simp] theorem moveRight_nil : moveRight ⟨left, []⟩ = ⟨left, []⟩ := rfl

@[simp] theorem backspace_snoc : backspace ⟨left ++ [c], right⟩ = ⟨left, right⟩ := by
  simp [backspace]

@[simp] theorem backspace_nil : backspace ⟨[], right⟩ = ⟨[], right⟩ := rfl

@[simp] theorem delete_cons : delete ⟨left, c :: right⟩ = ⟨left, right⟩ := rfl

@[simp] theorem delete_nil : delete ⟨left, []⟩ = ⟨left, []⟩ := rfl

theorem toList_moveLeft (z : Zipper α) : z.moveLeft.toList = z.toList := by
  obtain ⟨left, right⟩ := z
  rcases List.eq_nil_or_concat left with rfl | ⟨l, c, rfl⟩
  · rfl
  · simp [toList]

theorem toList_moveRight (z : Zipper α) : z.moveRight.toList = z.toList := by
  obtain ⟨left, _ | ⟨c, right⟩⟩ := z
  · rfl
  · simp [toList]

/-- Removing brings nothing new into the line. -/
theorem backspace_subset (z : Zipper α) : z.backspace.toList ⊆ z.toList :=
  List.append_subset.mpr ⟨fun _ h => List.mem_append_left _ (List.dropLast_subset _ h),
    List.subset_append_right _ _⟩

theorem delete_subset (z : Zipper α) : z.delete.toList ⊆ z.toList :=
  List.append_subset.mpr ⟨List.subset_append_left _ _,
    fun _ h => List.mem_append_right _ (List.mem_of_mem_tail h)⟩

theorem mem_insert {limit : ℕ} {d : α} (h : d ∈ (z.insert limit c).toList) : d = c ∨ d ∈ z.toList := by
  by_cases hroom : z.left.length + z.right.length < limit
  · rw [insert, if_pos hroom, toList, List.append_assoc, List.mem_append, List.mem_append,
      List.mem_singleton] at h
    rcases h with h | h | h
    · exact Or.inr (List.mem_append_left _ h)
    · exact Or.inl h
    · exact Or.inr (List.mem_append_right _ h)
  · rw [insert, if_neg hroom] at h
    exact Or.inr h

/-! ### The array -/

/-- The array holds the line and the filler `e` behind it; the position is the gap. -/
structure Stored (cap : ℕ) (e : α) (z : Zipper α) (m : ℕ → α) (size pos : ℕ) : Prop where
  pos_eq : pos = z.left.length
  size_eq : size = z.left.length + z.right.length
  room : size < cap
  cells : Holds cap e m z.toList

variable {cap size pos : ℕ} {e : α} {f : ε} {m : ℕ → α}

theorem stored_empty (h : ∀ j < cap, m j = e) (hcap : 0 < cap) : Stored cap e empty m 0 0 :=
  ⟨rfl, rfl, hcap, holds_nil h⟩

namespace Stored

theorem length_toList (h : Stored cap e z m size pos) : z.toList.length = size :=
  (Zipper.length_toList z).trans h.size_eq.symm

theorem pos_le (h : Stored cap e z m size pos) : pos ≤ size := by
  rw [h.pos_eq, h.size_eq]
  exact Nat.le_add_right _ _

/-- Behind the line stands the filler. -/
theorem filler (h : Stored cap e z m size pos) {j : ℕ} (hj : size ≤ j) (hcap : j < cap) : m j = e := by
  rw [h.cells j hcap, List.getD_eq_default _ _ (h.length_toList ▸ hj)]

theorem readAll (h : Stored cap e z m size pos) : readAll cap f size m = .ok z.toList := by
  have hread := h.cells.readAll (e := f) (h.length_toList ▸ Nat.le_of_lt h.room)
  rwa [h.length_toList] at hread

/-- Something stands before the gap. -/
theorem left_snoc (h : Stored cap e z m size pos) (hpos : 0 < pos) : ∃ l c, z = ⟨l ++ [c], z.right⟩ := by
  obtain ⟨left, right⟩ := z
  rcases List.eq_nil_or_concat left with rfl | ⟨l, c, rfl⟩
  · exact absurd h.pos_eq (Nat.ne_of_gt hpos)
  · exact ⟨l, c, by simp⟩

/-- Nothing stands before the gap. -/
theorem left_nil (h : Stored cap e z m size pos) (hpos : ¬ 0 < pos) : z = ⟨[], z.right⟩ := by
  obtain ⟨left, right⟩ := z
  have hl : left.length = 0 := h.pos_eq.symm.trans (Nat.eq_zero_of_not_pos hpos)
  rw [List.eq_nil_of_length_eq_zero hl]

/-- Something stands behind the gap. -/
theorem right_cons (h : Stored cap e z m size pos) (hpos : pos < size) : ∃ c r, z = ⟨z.left, c :: r⟩ := by
  obtain ⟨left, _ | ⟨c, r⟩⟩ := z
  · have h1 := h.pos_eq
    have h2 := h.size_eq
    simp only [List.length_nil] at h1 h2
    omega
  · exact ⟨c, r, rfl⟩

theorem right_nil (h : Stored cap e z m size pos) (hpos : ¬ pos < size) : z = ⟨z.left, []⟩ := by
  obtain ⟨left, right⟩ := z
  have h1 := h.pos_eq
  have h2 := h.size_eq
  have hr : right.length = 0 := by
    simp only at h1 h2
    omega
  rw [List.eq_nil_of_length_eq_zero hr]

theorem moveLeft (h : Stored cap e z m size pos) (hpos : 0 < pos) :
    Stored cap e z.moveLeft m size (pos - 1) := by
  obtain ⟨l, c, hz⟩ := h.left_snoc hpos
  have hcells : Holds cap e m z.moveLeft.toList := by
    rw [toList_moveLeft]
    exact h.cells
  have h1 := h.pos_eq
  have h2 := h.size_eq
  rw [hz] at h1 h2 hcells ⊢
  simp only [List.length_append, List.length_singleton] at h1 h2
  rw [moveLeft_snoc] at hcells ⊢
  exact ⟨by simp only; omega, by simp only [List.length_cons]; omega, h.room, hcells⟩

theorem moveRight (h : Stored cap e z m size pos) (hpos : pos < size) :
    Stored cap e z.moveRight m size (pos + 1) := by
  obtain ⟨c, r, hz⟩ := h.right_cons hpos
  have hcells : Holds cap e m z.moveRight.toList := by
    rw [toList_moveRight]
    exact h.cells
  have h1 := h.pos_eq
  have h2 := h.size_eq
  rw [hz] at h1 h2 hcells ⊢
  simp only [List.length_cons] at h1 h2
  rw [moveRight_cons] at hcells ⊢
  refine ⟨?_, ?_, h.room, hcells⟩
  · simp only [List.length_append, List.length_singleton]
    omega
  · simp only [List.length_append, List.length_singleton]
    omega

/-- Removing one element by the loop, from the place where it stood. -/
theorem remove (hl : Holds cap e m (left ++ c :: right)) (hcap : (left ++ c :: right).length < cap) :
    ∃ m₁ m₂, shiftDown cap f (left.length + right.length - left.length) left.length m = .ok m₁ ∧
      storeAt cap f (left.length + right.length) e m₁ = .ok m₂ ∧
      Stored cap e ⟨left, right⟩ m₂ (left.length + right.length) left.length := by
  obtain ⟨m₁, m₂, h1, h2, h3⟩ := hl.remove (e := f) hcap
  refine ⟨m₁, m₂, h1, h2, rfl, rfl, ?_, h3⟩
  simp only [List.length_append, List.length_cons] at hcap
  omega

/-- **Backspace**: the loop runs from the cell before the gap. -/
theorem backspace (h : Stored cap e z m size pos) (hpos : 0 < pos) :
    ∃ m₁ m₂, shiftDown cap f (size - 1 - (pos - 1)) (pos - 1) m = .ok m₁ ∧
      storeAt cap f (size - 1) e m₁ = .ok m₂ ∧ Stored cap e z.backspace m₂ (size - 1) (pos - 1) := by
  obtain ⟨l, c, hz⟩ := h.left_snoc hpos
  obtain ⟨left, right⟩ := z
  obtain rfl : left = l ++ [c] := congrArg Zipper.left hz
  have h1 : pos - 1 = l.length := by
    have := h.pos_eq
    simp only [List.length_append, List.length_singleton] at this
    omega
  have h2 : size - 1 = l.length + right.length := by
    have := h.size_eq
    simp only [List.length_append, List.length_singleton] at this
    omega
  have hcells : Holds cap e m (l ++ c :: right) := by
    have := h.cells
    rwa [toList, List.append_assoc] at this
  rw [h1, h2, backspace_snoc]
  refine remove hcells ?_
  have hroom := h.length_toList ▸ h.room
  rwa [toList, List.append_assoc] at hroom

/-- **Delete**: the loop runs from the cell behind the gap. -/
theorem delete (h : Stored cap e z m size pos) (hpos : pos < size) :
    ∃ m₁ m₂, shiftDown cap f (size - 1 - pos) pos m = .ok m₁ ∧
      storeAt cap f (size - 1) e m₁ = .ok m₂ ∧ Stored cap e z.delete m₂ (size - 1) pos := by
  obtain ⟨c, r, hz⟩ := h.right_cons hpos
  obtain ⟨left, right⟩ := z
  obtain rfl : right = c :: r := congrArg Zipper.right hz
  have h1 : pos = left.length := h.pos_eq
  have h2 : size - 1 = left.length + r.length := by
    have := h.size_eq
    simp only [List.length_cons] at this
    omega
  rw [h2, h1, delete_cons]
  exact remove h.cells (h.length_toList ▸ h.room)

/-- **Insert**: the loop runs from the end of the line down to the gap. -/
theorem insert (h : Stored cap e z m size pos) (hroom : size < cap - 1) (c : α) :
    ∃ m₁ m₂, shiftUp cap f (size - pos) size m = .ok m₁ ∧ storeAt cap f pos c m₁ = .ok m₂ ∧
      Stored cap e (z.insert (cap - 1) c) m₂ (size + 1) (pos + 1) := by
  obtain ⟨m₁, m₂, h1, h2, h3⟩ := h.cells.insert (e := f) (h.length_toList ▸ h.room) c
  rw [← h.size_eq, ← h.pos_eq] at h1
  rw [← h.pos_eq] at h2
  refine ⟨m₁, m₂, h1, h2, ?_⟩
  rw [Zipper.insert, if_pos (h.size_eq ▸ hroom)]
  refine ⟨?_, ?_, by omega, ?_⟩
  · simp only [List.length_append, List.length_singleton, h.pos_eq]
  · simp only [List.length_append, List.length_singleton, h.size_eq]
    omega
  · rwa [toList, List.append_assoc]

end Stored

/-- A full line takes nothing more. -/
theorem insert_full (h : Stored cap e z m size pos) (hfull : ¬ size < cap - 1) (c : α) :
    z.insert (cap - 1) c = z := by
  rw [insert, if_neg (h.size_eq ▸ hfull)]

end Zipper
