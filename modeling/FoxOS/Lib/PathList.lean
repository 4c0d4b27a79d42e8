import FoxOS.Lib.ParentTable

/-!
# FoxOS.Lib.PathList — a parent table as the list of its paths

In a tree every entry has one path, so the table says no more than the list `T.paths` of the paths of its
entries, in the order of the entries.  Following labels is searching this list (`Tree.walk_eq_find`); the other
paths stay when an entry is appended (`trail_grow`) or a leaf is taken out (`trail_remove`).
-/

namespace ParentTable

variable {N : Type*} {T T' : ParentTable N} {d i j k : ℕ} {c : N} {cs : List N}

/-- The paths of the entries. -/
def paths (T : ParentTable N) : List (List N) := (List.range T.size).map T.trail

/-! ### Trails -/

/-- Two tables with the same links and labels below `i` have the same trail there. -/
theorem trail_congr {n : ℕ} (hlt : ∀ i, 0 < i → i < n → T.parent i < i) (hp : ∀ i < n, T'.parent i = T.parent i)
    (hl : ∀ i < n, T'.label i = T.label i) : ∀ i, i < n → T'.trail i = T.trail i := by
  intro i
  induction i using Nat.strong_induction_on with
  | _ i ih =>
    intro hi
    rcases Nat.eq_zero_or_pos i with rfl | h0
    · rw [trail_zero, trail_zero]
    · have hpar := hlt i h0 hi
      have hpar' : T'.parent i < i := by rw [hp i hi]; exact hpar
      rw [trail_pos h0 hpar, trail_pos h0 hpar', hp i hi, hl i hi, ih _ hpar (hpar.trans hi)]

/-- The path of an entry other than the root: that of its parent, and its label. -/
theorem Tree.trail_eq (hT : T.Tree) (h0 : 0 < i) (hi : i < T.size) :
    T.trail i = T.trail (T.parent i) ++ [T.label i] :=
  trail_pos h0 (hT.parent_lt i h0 hi)

theorem Tree.trail_ne_nil (hT : T.Tree) (h0 : 0 < i) (hi : i < T.size) : T.trail i ≠ [] := by
  rw [hT.trail_eq h0 hi]
  exact List.append_ne_nil_of_right_ne_nil _ (List.cons_ne_nil _ _)

/-- An entry is a child of `d` exactly when its path is that of `d` and one label more. -/
theorem Tree.child_iff_trail [DecidableEq N] (hT : T.Tree) (hd : d < T.size) (hi : i < T.size) :
    (i ≠ 0 ∧ T.parent i = d) ↔ (T.trail i ≠ [] ∧ (T.trail i).dropLast = T.trail d) := by
  rcases Nat.eq_zero_or_pos i with rfl | h0
  · rw [trail_zero]
    exact iff_of_false (fun h => h.1 rfl) (fun h => h.1 rfl)
  · have hdrop : (T.trail i).dropLast = T.trail (T.parent i) := by
      rw [hT.trail_eq h0 hi, List.dropLast_concat]
    rw [hdrop]
    constructor
    · rintro ⟨-, rfl⟩
      exact ⟨hT.trail_ne_nil h0 hi, rfl⟩
    · rintro ⟨-, h⟩
      exact ⟨Nat.pos_iff_ne_zero.mp h0, hT.trail_inj (hT.parent_size hi) hd h⟩

/-! ### Searching -/

theorem Tree.walk_iff_trail [DecidableEq N] (hT : T.Tree) (hcs : ∀ c ∈ cs, c ≠ T.label 0) :
    T.walk 0 cs = some i ↔ i < T.size ∧ T.trail i = cs := by
  constructor
  · intro h
    exact ⟨walk_lt hT.size_pos h, (trail_of_walk hT.parent_lt hcs h).symm⟩
  · rintro ⟨hi, rfl⟩
    exact hT.walk_trail i hi

/-- **Following labels** is searching for the path. -/
theorem Tree.walk_eq_find [DecidableEq N] (hT : T.Tree) (hcs : ∀ c ∈ cs, c ≠ T.label 0) :
    T.walk 0 cs = T.paths.findIdx? (fun p => decide (p = cs)) := by
  refine Option.ext fun i => ?_
  rw [hT.walk_iff_trail hcs, List.findIdx?_eq_some_iff_getElem]
  simp only [paths, List.getElem_map, List.getElem_range, decide_eq_true_eq]
  constructor
  · rintro ⟨hi, rfl⟩
    refine ⟨by rwa [List.length_map, List.length_range], rfl, fun j hj h => ?_⟩
    exact Nat.ne_of_lt hj (hT.trail_inj (hj.trans hi) hi h)
  · rintro ⟨hi, h, -⟩
    rw [List.length_map, List.length_range] at hi
    exact ⟨hi, h⟩

/-! ### Appending and removing -/

theorem trail_grow (hT : T.Tree) (hi : i < T.size) : (T.grow d c).trail i = T.trail i :=
  trail_congr (fun i h0 hi => hT.parent_lt i h0 hi) (fun _ hi => grow_parent_lt hi)
    (fun _ hi => grow_label_lt hi) i hi

theorem Tree.trail_grow_last (hT : T.Tree) (hd : d < T.size) :
    (T.grow d c).trail T.size = T.trail d ++ [c] := by
  have hpar : (T.grow d c).parent T.size = d := grow_parent_size
  have hlab : (T.grow d c).label T.size = c := grow_label_size
  rw [trail_pos hT.size_pos (by rw [hpar]; exact hd), hpar, hlab, trail_grow hT hd]

/-- Taking one element out of a list that is indexed by a range. -/
theorem eraseIdx_map_range {α : Type*} (f : ℕ → α) {n : ℕ} (hk : k < n) :
    ((List.range n).map f).eraseIdx k = (List.range (n - 1)).map fun i => f (skip k i) := by
  refine List.ext_getElem ?_ fun i h1 h2 => ?_
  · rw [List.length_eraseIdx_of_lt (by simpa using hk)]
    simp
  · have hright : ((List.range (n - 1)).map fun i => f (skip k i))[i] = f (skip k i) := by
      rw [List.getElem_map, List.getElem_range]
    rw [hright, List.getElem_eraseIdx, skip]
    split_ifs <;> rw [List.getElem_map, List.getElem_range]

theorem trail_remove (hT : T.Tree) (hk : k < T.size) (h0 : 0 < k) (hleaf : ∀ i < T.size, T.parent i ≠ k) :
    ∀ i, i < T.size - 1 → (T.remove k).trail i = T.trail (skip k i) := by
  have hT' := hT.remove hk h0 hleaf
  intro i
  induction i using Nat.strong_induction_on with
  | _ i ih =>
    intro hi
    rcases Nat.eq_zero_or_pos i with rfl | hi0
    · rw [trail_zero, skip, if_pos h0, trail_zero]
    · have hlt : skip k i < T.size := by
        unfold skip
        split_ifs <;> omega
      have hpos : 0 < skip k i := by
        unfold skip
        split_ifs <;> omega
      have hpar := hT'.parent_lt i hi0 hi
      have hold : (T.remove k).parent i = unskip k (T.parent (skip k i)) := rfl
      rw [hT'.trail_eq hi0 hi, ih _ hpar (hpar.trans hi), hT.trail_eq hpos hlt, hold, skip_unskip (hleaf _ hlt)]
      rfl

end ParentTable
