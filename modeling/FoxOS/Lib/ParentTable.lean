import Mathlib.Data.Fintype.EquivFin
import Mathlib.Data.List.Find
import Mathlib.Data.List.Induction
import Mathlib.Data.Nat.Init
import Mathlib.Logic.Function.Basic

/-!
# FoxOS.Lib.ParentTable — labelled trees stored as a table of parent links

A `ParentTable` has `size` entries; entry `i` stores the index of its parent and a label.  `child` is
the first entry with a given parent and label, `walk` follows a list of labels.  `Tree` is the
invariant: entry `0` is its own parent, every other parent index is smaller, siblings have different
labels.  In a tree every entry is reached by its `trail` (the labels from the root down) and by no
other list of labels that avoids the root's own label.

* `grow d c` appends a child: every walk stays, and the only new one is the parent's walk plus `c`.
* `remove k` takes a leaf out and renumbers: every other walk stays (up to the renumbering).
* `bury k` leaves a dead entry in place: it takes the walks through `k` away, and for a leaf no others.
* Links that move to the front cost a walk: `Tree.links_kept`.
-/

/-- A table of parent links and labels. -/
structure ParentTable (N : Type*) where
  size : ℕ
  parent : ℕ → ℕ
  label : ℕ → N

namespace ParentTable

variable {N : Type*}

section Defs

variable (T : ParentTable N)

/-- The first entry with parent `d` and label `c`. -/
def child [DecidableEq N] (d : ℕ) (c : N) : Option ℕ :=
  (List.range T.size).find? (fun i => decide (T.parent i = d ∧ T.label i = c))

/-- Follow the labels from entry `d`. -/
def walk [DecidableEq N] : ℕ → List N → Option ℕ
  | d, [] => some d
  | d, c :: cs => (T.child d c).bind (fun i => walk i cs)

/-- The labels from the root down to `i`. -/
def trail (i : ℕ) : List N :=
  if 0 < i ∧ T.parent i < i then trail (T.parent i) ++ [T.label i] else []
termination_by i
decreasing_by omega

/-- Append an entry with parent `d` and label `c`. -/
def grow (d : ℕ) (c : N) : ParentTable N where
  size := T.size + 1
  parent := Function.update T.parent T.size d
  label := Function.update T.label T.size c

/-- The old index of new entry `i` once entry `k` is out. -/
def skip (k i : ℕ) : ℕ := if i < k then i else i + 1

/-- The new index of old entry `i ≠ k` once entry `k` is out. -/
def unskip (k i : ℕ) : ℕ := if i < k then i else i - 1

/-- Take entry `k` out and renumber the entries behind it and the links to them. -/
def remove (k : ℕ) : ParentTable N where
  size := T.size - 1
  parent := fun i => unskip k (T.parent (skip k i))
  label := fun i => T.label (skip k i)

/-- Leave entry `k` in its place, with the label `dead` and a link to `far`. -/
def bury (k : ℕ) (dead : N) (far : ℕ) : ParentTable N where
  size := T.size
  parent := Function.update T.parent k far
  label := Function.update T.label k dead

/-- **Tree invariant** of a parent table. -/
structure Tree (T : ParentTable N) : Prop where
  size_pos : 0 < T.size
  root : T.parent 0 = 0
  parent_lt : ∀ i, 0 < i → i < T.size → T.parent i < i
  sib : ∀ i j, i < T.size → j < T.size → T.parent i = T.parent j → T.label i = T.label j → i = j

/-- Two tables with the same entries. -/
structure Same (T T' : ParentTable N) : Prop where
  size : T.size = T'.size
  parent : ∀ i < T'.size, T.parent i = T'.parent i
  label : ∀ i < T'.size, T.label i = T'.label i

end Defs

variable {T T' : ParentTable N} {d e i j k : ℕ} {c : N} {cs : List N}

/-! ### Parents and trails -/

theorem Tree.parent_le (hT : T.Tree) (hi : i < T.size) : T.parent i ≤ i := by
  rcases Nat.eq_zero_or_pos i with rfl | h
  · exact Nat.le_of_eq hT.root
  · exact Nat.le_of_lt (hT.parent_lt i h hi)

theorem Tree.parent_size (hT : T.Tree) (hi : i < T.size) : T.parent i < T.size :=
  Nat.lt_of_le_of_lt (hT.parent_le hi) hi

@[simp] theorem trail_zero : T.trail 0 = [] := by
  rw [trail, if_neg (by omega)]

theorem trail_pos (h0 : 0 < i) (hlt : T.parent i < i) : T.trail i = T.trail (T.parent i) ++ [T.label i] := by
  rw [trail, if_pos ⟨h0, hlt⟩]

/-- The labels on a trail are labels of entries other than the root. -/
theorem Tree.label_of_trail (hT : T.Tree) : ∀ i, i < T.size → ∀ c ∈ T.trail i,
    ∃ j, 0 < j ∧ j < T.size ∧ T.label j = c := by
  intro i
  induction i using Nat.strong_induction_on with
  | _ i ih =>
    intro hi c hc
    rcases Nat.eq_zero_or_pos i with rfl | h0
    · simp at hc
    · have hlt := hT.parent_lt i h0 hi
      rw [trail_pos h0 hlt] at hc
      rcases List.mem_append.mp hc with hc | hc
      · exact ih _ hlt (by omega) c hc
      · exact ⟨i, h0, hi, (List.mem_singleton.mp hc).symm⟩

@[simp] theorem grow_parent_lt (h : i < T.size) : (T.grow d c).parent i = T.parent i := by
  simp [grow, Function.update_of_ne (Nat.ne_of_lt h)]

@[simp] theorem grow_label_lt (h : i < T.size) : (T.grow d c).label i = T.label i := by
  simp [grow, Function.update_of_ne (Nat.ne_of_lt h)]

@[simp] theorem grow_parent_size : (T.grow d c).parent T.size = d := by simp [grow]

@[simp] theorem grow_label_size : (T.grow d c).label T.size = c := by simp [grow]

@[simp] theorem bury_parent_of_ne (h : i ≠ k) : (T.bury k c d).parent i = T.parent i :=
  Function.update_of_ne h _ _

@[simp] theorem bury_label_of_ne (h : i ≠ k) : (T.bury k c d).label i = T.label i :=
  Function.update_of_ne h _ _

theorem unskip_skip : unskip k (skip k i) = i := by
  unfold unskip skip
  split_ifs <;> omega

theorem skip_unskip (h : i ≠ k) : skip k (unskip k i) = i := by
  unfold unskip skip
  split_ifs <;> omega

theorem skip_ne : skip k i ≠ k := by
  unfold skip
  split_ifs <;> omega

theorem unskip_inj (hi : i ≠ k) (hj : j ≠ k) (h : unskip k i = unskip k j) : i = j := by
  rw [← skip_unskip hi, h, skip_unskip hj]

theorem Same.tree (h : Same T T') (hT : T'.Tree) : T.Tree := by
  have hpos := hT.size_pos
  refine ⟨by rw [h.size]; exact hpos, by rw [h.parent 0 hpos]; exact hT.root, ?_, ?_⟩
  · intro i h0 hi
    rw [h.size] at hi
    rw [h.parent i hi]
    exact hT.parent_lt i h0 hi
  · intro i j hi hj hp hl
    rw [h.size] at hi hj
    rw [h.parent i hi, h.parent j hj] at hp
    rw [h.label i hi, h.label j hj] at hl
    exact hT.sib i j hi hj hp hl

/-! ### Lookup and walks -/

variable [DecidableEq N]

theorem child_some (h : T.child d c = some i) :
    i < T.size ∧ T.parent i = d ∧ T.label i = c := by
  have h1 := List.find?_some h
  have h2 := List.mem_of_find?_eq_some h
  exact ⟨List.mem_range.mp h2, by simpa using h1⟩

theorem child_eq_none : T.child d c = none ↔ ∀ i < T.size, ¬ (T.parent i = d ∧ T.label i = c) := by
  simp [child]

/-- Of more labels than there are entries, one is not the label of a child. -/
theorem exists_child_none {f : Fin (T.size + 1) → N} (hf : Function.Injective f) (d : ℕ) :
    ∃ j, T.child d (f j) = none := by
  by_contra hall
  have hsome : ∀ j, ∃ i, T.child d (f j) = some i :=
    fun j => Option.ne_none_iff_exists'.mp fun hj => hall ⟨j, hj⟩
  choose g hg using hsome
  -- the entries found are different, since their labels are
  have hinj : Function.Injective fun j => (⟨g j, (child_some (hg j)).1⟩ : Fin T.size) := by
    intro j j' hjj
    have hgj : g j = g j' := congrArg Fin.val hjj
    refine hf ?_
    rw [← (child_some (hg j)).2.2, ← (child_some (hg j')).2.2, hgj]
  have hcard := Fintype.card_le_of_injective _ hinj
  rw [Fintype.card_fin, Fintype.card_fin] at hcard
  omega

theorem Same.child (h : Same T T') (d : ℕ) (c : N) : T.child d c = T'.child d c := by
  unfold ParentTable.child
  rw [h.size]
  refine List.find?_congr fun i hi => ?_
  rw [h.parent i (List.mem_range.mp hi), h.label i (List.mem_range.mp hi)]

@[simp] theorem walk_nil : T.walk d [] = some d := rfl

theorem walk_cons : T.walk d (c :: cs) = (T.child d c).bind (fun i => T.walk i cs) := rfl

theorem walk_cons_eq_some :
    T.walk d (c :: cs) = some i ↔ ∃ j, T.child d c = some j ∧ T.walk j cs = some i := by
  rw [walk_cons, Option.bind_eq_some_iff]

theorem walk_append (as bs : List N) (d : ℕ) :
    T.walk d (as ++ bs) = (T.walk d as).bind (fun i => T.walk i bs) := by
  induction as generalizing d with
  | nil => simp
  | cons a as ih =>
    simp only [List.cons_append, walk_cons, Option.bind_assoc]
    exact congrArg _ (funext fun i => ih i)

/-- A walk is the left fold of lookups. -/
theorem walk_eq_foldl (cs : List N) (d : ℕ) :
    T.walk d cs = cs.foldl (fun o c => o.bind fun i => T.child i c) (some d) := by
  induction cs using List.reverseRecOn with
  | nil => rfl
  | append_singleton cs c ih => simp [walk_append, ih, walk]

theorem Same.walk (h : Same T T') (cs : List N) (d : ℕ) : T.walk d cs = T'.walk d cs := by
  induction cs generalizing d with
  | nil => rfl
  | cons c cs ih =>
    rw [walk_cons, walk_cons, h.child]
    exact congrArg _ (funext fun i => ih i)

theorem walk_singleton : T.walk d [c] = T.child d c := by
  simp [walk_cons]

theorem walk_lt (hd : d < T.size) (h : T.walk d cs = some i) : i < T.size := by
  induction cs generalizing d with
  | nil => cases h; exact hd
  | cons c cs ih =>
    obtain ⟨j, h1, h2⟩ := walk_cons_eq_some.mp h
    exact ih (child_some h1).1 h2

/-- Every label on a walk is the label of an entry. -/
theorem label_of_walk (h : T.walk d cs = some i) : ∀ c ∈ cs, ∃ j < T.size, T.label j = c := by
  induction cs generalizing d with
  | nil => simp
  | cons c cs ih =>
    obtain ⟨j, h1, h2⟩ := walk_cons_eq_some.mp h
    intro b hb
    rcases List.mem_cons.mp hb with rfl | hb
    · exact ⟨j, (child_some h1).1, (child_some h1).2.2⟩
    · exact ih h2 b hb

theorem Tree.child_iff (hT : T.Tree) :
    T.child d c = some i ↔ i < T.size ∧ T.parent i = d ∧ T.label i = c := by
  refine ⟨child_some, fun ⟨h1, h2, h3⟩ => ?_⟩
  cases hc : T.child d c with
  | none => exact absurd ⟨h2, h3⟩ (child_eq_none.mp hc i h1)
  | some j =>
    obtain ⟨g1, g2, g3⟩ := child_some hc
    rw [hT.sib i j h1 g1 (h2.trans g2.symm) (h3.trans g3.symm)]

/-- **Reachability**: the trail of an entry leads to it. -/
theorem Tree.walk_trail (hT : T.Tree) : ∀ i, i < T.size → T.walk 0 (T.trail i) = some i := by
  intro i
  induction i using Nat.strong_induction_on with
  | _ i ih =>
    intro hi
    rcases Nat.eq_zero_or_pos i with rfl | h0
    · simp
    · have hlt := hT.parent_lt i h0 hi
      rw [trail_pos h0 hlt, walk_append, ih _ hlt (by omega), Option.bind_some, walk_singleton]
      exact hT.child_iff.mpr ⟨hi, rfl, rfl⟩

/-- **Uniqueness**: a list of labels that avoids the root's label and leads to `i` is the trail. -/
theorem trail_of_walk (hlt : ∀ i, 0 < i → i < T.size → T.parent i < i) (hcs : ∀ c ∈ cs, c ≠ T.label 0)
    (h : T.walk 0 cs = some i) : cs = T.trail i := by
  induction cs using List.reverseRecOn generalizing i with
  | nil => cases h; simp
  | append_singleton cs c ih =>
    rw [walk_append] at h
    obtain ⟨d, h1, h2⟩ := Option.bind_eq_some_iff.mp h
    rw [walk_singleton] at h2
    obtain ⟨g1, g2, g3⟩ := child_some h2
    have hne : i ≠ 0 := by
      rintro rfl
      exact hcs c (by simp) g3.symm
    have h0 := Nat.pos_of_ne_zero hne
    rw [trail_pos h0 (hlt i h0 g1), g2, g3, ih (fun b hb => hcs b (by simp [hb])) h1]

theorem Tree.trail_inj (hT : T.Tree) (hi : i < T.size) (hj : j < T.size)
    (h : T.trail i = T.trail j) : i = j := by
  have hw := hT.walk_trail i hi
  rw [h, hT.walk_trail j hj] at hw
  exact (Option.some.inj hw).symm

/-! ### Appending an entry -/

theorem Tree.grow (hT : T.Tree) (hd : d < T.size) (hfresh : T.child d c = none) :
    (T.grow d c).Tree := by
  have hpos := hT.size_pos
  have hlast : ∀ i, i < T.size → (T.grow d c).parent i = d → (T.grow d c).label i = c → False := by
    intro i hi h1 h2
    rw [grow_parent_lt hi] at h1
    rw [grow_label_lt hi] at h2
    exact child_eq_none.mp hfresh i hi ⟨h1, h2⟩
  refine ⟨Nat.succ_pos _, ?_, ?_, ?_⟩
  · rw [grow_parent_lt hpos]; exact hT.root
  · intro i h0 hi
    rcases Nat.lt_succ_iff_lt_or_eq.mp hi with hi | rfl
    · rw [grow_parent_lt hi]; exact hT.parent_lt i h0 hi
    · rw [grow_parent_size]; exact hd
  · intro i j hi hj hp hl
    rcases Nat.lt_succ_iff_lt_or_eq.mp hi with hi | rfl <;>
      rcases Nat.lt_succ_iff_lt_or_eq.mp hj with hj | rfl
    · rw [grow_parent_lt hi, grow_parent_lt hj] at hp
      rw [grow_label_lt hi, grow_label_lt hj] at hl
      exact hT.sib i j hi hj hp hl
    · exact (hlast i hi (by simpa using hp) (by simpa using hl)).elim
    · exact (hlast j hj (by simpa using hp.symm) (by simpa using hl.symm)).elim
    · rfl

/-- Lookup after appending: an old entry, or the new one. -/
theorem Tree.child_grow (hT : T.Tree) (hd : d < T.size) (hfresh : T.child d c = none) {b : N} :
    (T.grow d c).child e b = some j ↔ T.child e b = some j ∨ (e = d ∧ b = c ∧ j = T.size) := by
  rw [(hT.grow hd hfresh).child_iff, hT.child_iff]
  constructor
  · rintro ⟨h1, h2, h3⟩
    rcases Nat.lt_succ_iff_lt_or_eq.mp h1 with h | rfl
    · rw [grow_parent_lt h] at h2
      rw [grow_label_lt h] at h3
      exact Or.inl ⟨h, h2, h3⟩
    · exact Or.inr ⟨by simpa using h2.symm, by simpa using h3.symm, rfl⟩
  · rintro (⟨h1, h2, h3⟩ | ⟨rfl, rfl, rfl⟩)
    · exact ⟨Nat.lt_succ_of_lt h1, by rw [grow_parent_lt h1]; exact h2,
        by rw [grow_label_lt h1]; exact h3⟩
    · exact ⟨Nat.lt_succ_self _, grow_parent_size, grow_label_size⟩

/-- The new entry has no children. -/
theorem Tree.walk_grow_last (hT : T.Tree) (hd : d < T.size) (hfresh : T.child d c = none) :
    (T.grow d c).walk T.size cs = some i ↔ cs = [] ∧ i = T.size := by
  cases cs with
  | nil => simp [eq_comm]
  | cons b bs =>
    simp only [walk_cons_eq_some, hT.child_grow hd hfresh, reduceCtorEq, false_and, iff_false]
    rintro ⟨j, h | ⟨h, -⟩, -⟩
    · obtain ⟨g1, g2, -⟩ := child_some h
      have := hT.parent_size g1
      omega
    · omega

/-- **Walks after appending**: the old ones, and the parent's walk extended by the new label. -/
theorem Tree.walk_grow (hT : T.Tree) (hd : d < T.size) (hfresh : T.child d c = none) (he : e < T.size) :
    (T.grow d c).walk e cs = some i ↔
      T.walk e cs = some i ∨ (i = T.size ∧ ∃ as, cs = as ++ [c] ∧ T.walk e as = some d) := by
  induction cs generalizing e with
  | nil => simp
  | cons b bs ih =>
    rw [walk_cons_eq_some, walk_cons_eq_some]
    constructor
    · rintro ⟨j, hj, hw⟩
      rcases (hT.child_grow hd hfresh).mp hj with hj | ⟨rfl, rfl, rfl⟩
      · rcases (ih (child_some hj).1).mp hw with h | ⟨h, as, rfl, hwa⟩
        · exact Or.inl ⟨j, hj, h⟩
        · exact Or.inr ⟨h, b :: as, rfl, walk_cons_eq_some.mpr ⟨j, hj, hwa⟩⟩
      · obtain ⟨rfl, rfl⟩ := (hT.walk_grow_last hd hfresh).mp hw
        exact Or.inr ⟨rfl, [], rfl, rfl⟩
    · rintro (⟨j, hj, hw⟩ | ⟨hi, as, has, hwa⟩)
      · exact ⟨j, (hT.child_grow hd hfresh).mpr (Or.inl hj), (ih (child_some hj).1).mpr (Or.inl hw)⟩
      · cases as with
        | nil =>
          obtain ⟨rfl, rfl⟩ : b = c ∧ bs = [] := by simpa using has
          cases hwa
          exact ⟨T.size, (hT.child_grow hd hfresh).mpr (Or.inr ⟨rfl, rfl, rfl⟩), by rw [hi]; rfl⟩
        | cons a as =>
          obtain ⟨rfl, rfl⟩ : b = a ∧ bs = as ++ [c] := by simpa using has
          obtain ⟨j, hj, hw⟩ := walk_cons_eq_some.mp hwa
          exact ⟨j, (hT.child_grow hd hfresh).mpr (Or.inl hj),
            (ih (child_some hj).1).mpr (Or.inr ⟨hi, as, rfl, hw⟩)⟩

/-- A leaf is the end of every walk through it. -/
theorem walk_leaf (hleaf : ∀ i < T.size, T.parent i ≠ k) :
    T.walk k cs = some i ↔ cs = [] ∧ i = k := by
  cases cs with
  | nil => simp [eq_comm]
  | cons b bs =>
    simp only [walk_cons_eq_some, reduceCtorEq, false_and, iff_false]
    rintro ⟨j, h, -⟩
    exact hleaf j (child_some h).1 (child_some h).2.1

/-! ### Burying an entry -/

section Bury

variable {dead : N} {far : ℕ}

/-- A lookup of another label finds what it found before, but not the buried entry. -/
theorem Tree.child_bury (hT : T.Tree) (hc : c ≠ dead) :
    (T.bury k dead far).child d c = some i ↔ T.child d c = some i ∧ i ≠ k := by
  have hdead : ∀ {j}, (T.bury k dead far).label j = c → j ≠ k := by
    rintro j hl rfl
    exact hc (hl.symm.trans (Function.update_self _ _ _))
  constructor
  · intro h
    obtain ⟨h1, h2, h3⟩ := child_some h
    have hne := hdead h3
    rw [bury_parent_of_ne hne] at h2
    rw [bury_label_of_ne hne] at h3
    exact ⟨hT.child_iff.mpr ⟨h1, h2, h3⟩, hne⟩
  · rintro ⟨h, hne⟩
    cases hb : (T.bury k dead far).child d c with
    | none =>
      obtain ⟨h1, h2, h3⟩ := child_some h
      refine absurd ⟨?_, ?_⟩ (child_eq_none.mp hb i h1)
      · rw [bury_parent_of_ne hne, h2]
      · rw [bury_label_of_ne hne, h3]
    | some j =>
      obtain ⟨h1, h2, h3⟩ := child_some hb
      have hnej := hdead h3
      rw [bury_parent_of_ne hnej] at h2
      rw [bury_label_of_ne hnej] at h3
      rw [← h, hT.child_iff.mpr ⟨h1, h2, h3⟩]

/-- A walk that is left was there before, and does not end in the buried entry. -/
theorem Tree.walk_of_bury (hT : T.Tree) (hcs : ∀ c ∈ cs, c ≠ dead) (hd : d ≠ k)
    (h : (T.bury k dead far).walk d cs = some i) : T.walk d cs = some i ∧ i ≠ k := by
  induction cs generalizing d with
  | nil => cases h; exact ⟨rfl, hd⟩
  | cons c cs ih =>
    obtain ⟨j, h1, h2⟩ := walk_cons_eq_some.mp h
    obtain ⟨hj, hjk⟩ := (hT.child_bury (hcs c (by simp))).mp h1
    obtain ⟨hw, hik⟩ := ih (fun b hb => hcs b (by simp [hb])) hjk h2
    exact ⟨walk_cons_eq_some.mpr ⟨j, hj, hw⟩, hik⟩

/-- **Burying a leaf** takes no other walk away. -/
theorem Tree.walk_bury (hT : T.Tree) (hleaf : ∀ i < T.size, T.parent i ≠ k)
    (hcs : ∀ c ∈ cs, c ≠ dead) (hd : d ≠ k) :
    (T.bury k dead far).walk d cs = some i ↔ T.walk d cs = some i ∧ i ≠ k := by
  refine ⟨hT.walk_of_bury hcs hd, ?_⟩
  induction cs generalizing d with
  | nil =>
    rintro ⟨h, -⟩
    exact h
  | cons c cs ih =>
    rintro ⟨h, hik⟩
    obtain ⟨j, hj, hw⟩ := walk_cons_eq_some.mp h
    have hjk : j ≠ k := by
      rintro rfl
      exact hik ((walk_leaf hleaf).mp hw).2
    exact walk_cons_eq_some.mpr ⟨j, (hT.child_bury (hcs c (by simp))).mpr ⟨hj, hjk⟩,
      ih (fun b hb => hcs b (by simp [hb])) hjk ⟨hw, hik⟩⟩

/-- **Burying a parent** takes the walks to its children away. -/
theorem Tree.leaf_of_bury (hT : T.Tree) (hdead : ∀ i, 0 < i → i < T.size → T.label i ≠ dead) (h0 : 0 < k)
    (hk : k < T.size) (hkept : ∀ i < T.size, i ≠ k → (T.bury k dead far).walk 0 (T.trail i) = some i) :
    ∀ i < T.size, T.parent i ≠ k := by
  rintro i hi rfl
  have hi0 : 0 < i := by
    rcases Nat.eq_zero_or_pos i with rfl | hi0
    · exact absurd hT.root (Nat.ne_of_gt h0)
    · exact hi0
  have hlt := hT.parent_lt i hi0 hi
  have hw := hkept i hi (Nat.ne_of_gt hlt)
  rw [trail_pos hi0 hlt, walk_append] at hw
  obtain ⟨d, hd, -⟩ := Option.bind_eq_some_iff.mp hw
  have hcs : ∀ c ∈ T.trail (T.parent i), c ≠ dead := by
    intro c hc
    obtain ⟨j, hj0, hj, rfl⟩ := hT.label_of_trail _ hk c hc
    exact hdead j hj0 hj
  obtain ⟨hd', hne⟩ := hT.walk_of_bury hcs (Nat.ne_of_lt h0) hd
  rw [hT.walk_trail _ hk] at hd'
  exact hne (Option.some.inj hd').symm

end Bury

/-! ### Removing a leaf -/

section Remove

variable (hT : T.Tree) (hk : k < T.size) (h0 : 0 < k) (hleaf : ∀ i < T.size, T.parent i ≠ k)
include hT hk h0 hleaf

omit [DecidableEq N] in
theorem Tree.remove : (T.remove k).Tree := by
  have hskip : ∀ i, i < T.size - 1 → skip k i < T.size := by
    intro i hi
    unfold skip
    split_ifs <;> omega
  refine ⟨by simp only [ParentTable.remove]; omega, ?_, ?_, ?_⟩
  · simp only [ParentTable.remove, skip, if_pos h0, hT.root, unskip]
  · intro i hi0 hi
    have hlt := hT.parent_lt (skip k i) (by unfold skip; split_ifs <;> omega) (hskip i hi)
    have hne := hleaf (skip k i) (hskip i hi)
    simp only [ParentTable.remove]
    unfold unskip
    unfold skip at hlt hne ⊢
    split_ifs at * <;> omega
  · intro i j hi hj hp hl
    have := hT.sib _ _ (hskip i hi) (hskip j hj)
      (unskip_inj (hleaf _ (hskip i hi)) (hleaf _ (hskip j hj)) hp) hl
    rw [← unskip_skip (k := k) (i := i), this, unskip_skip]

/-- Lookup after removing: the old entry under its new index, unless it is the removed one. -/
theorem Tree.child_remove (hd : d ≠ k) :
    (T.remove k).child (unskip k d) c = some j ↔ ∃ i, T.child d c = some i ∧ i ≠ k ∧ j = unskip k i := by
  rw [(hT.remove hk h0 hleaf).child_iff]
  simp only [hT.child_iff]
  constructor
  · rintro ⟨h1, h2, h3⟩
    have hlt : skip k j < T.size := by
      simp only [ParentTable.remove] at h1
      unfold skip
      split_ifs <;> omega
    exact ⟨skip k j, ⟨hlt, unskip_inj (hleaf _ hlt) hd h2, h3⟩, skip_ne, unskip_skip.symm⟩
  · rintro ⟨i, ⟨h1, h2, h3⟩, hne, rfl⟩
    refine ⟨?_, ?_, ?_⟩
    · simp only [ParentTable.remove]
      unfold unskip
      split_ifs <;> omega
    · simp only [ParentTable.remove, skip_unskip hne, h2]
    · simp only [ParentTable.remove, skip_unskip hne, h3]

/-- **Walks after removing a leaf**: the old ones to the other entries, under the new indices. -/
theorem Tree.walk_remove (hd : d ≠ k) :
    (T.remove k).walk (unskip k d) cs = some j ↔ ∃ i, T.walk d cs = some i ∧ i ≠ k ∧ j = unskip k i := by
  induction cs generalizing d with
  | nil =>
    simp only [walk_nil, Option.some.injEq]
    exact ⟨fun h => ⟨d, rfl, hd, h.symm⟩, fun ⟨i, h1, _, h3⟩ => by rw [h1, h3]⟩
  | cons b bs ih =>
    simp only [walk_cons_eq_some, hT.child_remove hk h0 hleaf hd]
    constructor
    · rintro ⟨m, ⟨i, h1, h2, rfl⟩, hw⟩
      obtain ⟨i', g1, g2, g3⟩ := (ih h2).mp hw
      exact ⟨i', ⟨i, h1, g1⟩, g2, g3⟩
    · rintro ⟨i', ⟨i, h1, g1⟩, g2, g3⟩
      have hne : i ≠ k := by
        rintro rfl
        exact g2 ((walk_leaf hleaf).mp g1).2
      exact ⟨unskip k i, ⟨i, h1, hne, rfl⟩, (ih hne).mpr ⟨i', g1, g2, g3⟩⟩

end Remove

/-! ### Moving links -/

section Relink

variable (hT : T.Tree) (hroot : ∀ i, 0 < i → i < T.size → T.label i ≠ T.label 0) (hsize : T'.size = T.size)
  (hlabel : ∀ i < T.size, T'.label i = T.label i) (hle : ∀ i < T.size, T'.parent i ≤ T.parent i)
  (hwalk : ∀ i < T.size, ∃ j, T'.walk 0 (T.trail i) = some j)
include hT hroot hsize hlabel hle hwalk

/-- If every trail still leads somewhere, every entry is reached by an old trail: there is one trail for
each. -/
theorem Tree.relinked_trail (hj : j < T.size) :
    ∃ i < T.size, T'.walk 0 (T.trail i) = some j ∧ T'.trail j = T.trail i := by
  have hlt' : ∀ i, 0 < i → i < T'.size → T'.parent i < i := by
    intro i h0 hi
    rw [hsize] at hi
    exact Nat.lt_of_le_of_lt (hle i hi) (hT.parent_lt i h0 hi)
  have htrail : ∀ i < T.size, ∀ x, T'.walk 0 (T.trail i) = some x → T'.trail x = T.trail i := by
    intro i hi x hx
    refine (trail_of_walk hlt' (fun c hc => ?_) hx).symm
    obtain ⟨m, h0, hm, rfl⟩ := hT.label_of_trail i hi c hc
    rw [hlabel 0 hT.size_pos]
    exact hroot m h0 hm
  have hmem : ∀ i < T.size, ∀ x, T'.walk 0 (T.trail i) = some x → x < T.size := by
    intro i _ x hx
    rw [← hsize]
    exact walk_lt (hsize ▸ hT.size_pos) hx
  -- the new end of each old trail
  choose f hf using fun i : Fin T.size => hwalk i.val i.isLt
  have hinj : Function.Injective fun i : Fin T.size => (⟨f i, hmem i.val i.isLt _ (hf i)⟩ : Fin T.size) := by
    intro a b hab
    have hends : f a = f b := congrArg Fin.val hab
    refine Fin.ext (hT.trail_inj a.isLt b.isLt ?_)
    rw [← htrail a.val a.isLt _ (hf a), hends, htrail b.val b.isLt _ (hf b)]
  obtain ⟨i, hi⟩ := Finite.injective_iff_surjective.mp hinj ⟨j, hj⟩
  have hfi : f i = j := congrArg Fin.val hi
  exact ⟨i.val, i.isLt, hfi ▸ hf i, htrail i.val i.isLt j (hfi ▸ hf i)⟩

/-- **Links that only move to the front**: if no trail is lost, no link has moved. -/
theorem Tree.links_kept (hi : i < T.size) : T'.parent i = T.parent i := by
  have hinj : ∀ a b, a < T.size → b < T.size → T'.trail a = T'.trail b → a = b := by
    intro a b ha hb hab
    obtain ⟨a', ha', hwa, hta⟩ := hT.relinked_trail hroot hsize hlabel hle hwalk ha
    obtain ⟨b', hb', hwb, htb⟩ := hT.relinked_trail hroot hsize hlabel hle hwalk hb
    rw [hT.trail_inj ha' hb' (hta.symm.trans (hab.trans htb)), hwb] at hwa
    exact (Option.some.inj hwa).symm
  have hlt' : ∀ i, 0 < i → i < T.size → T'.parent i < i :=
    fun i h0 hi => Nat.lt_of_le_of_lt (hle i hi) (hT.parent_lt i h0 hi)
  -- by induction on the old link: the links in front of it are where they were
  induction hy : T.parent i using Nat.strong_induction_on generalizing i with
  | _ y ih =>
    rcases Nat.eq_zero_or_pos i with rfl | h0
    · have h1 := hle 0 hi
      have h2 := hT.root
      omega
    have hsame : ∀ j, j ≤ y → j < T.size → T'.trail j = T.trail j := by
      intro j
      induction j using Nat.strong_induction_on with
      | _ j ihj =>
        intro hjy hj
        rcases Nat.eq_zero_or_pos j with rfl | hj0
        · rw [trail_zero, trail_zero]
        have hlt := hT.parent_lt j hj0 hj
        have hpar : T'.parent j = T.parent j := ih (T.parent j) (by omega) hj rfl
        rw [trail_pos hj0 (hlt' j hj0 hj), trail_pos hj0 hlt, hpar, hlabel j hj,
          ihj _ hlt (by omega) (by omega)]
    by_contra hne
    have hb : T'.parent i < y := by
      have := hle i hi
      omega
    have hyi : y < i := hy ▸ hT.parent_lt i h0 hi
    -- the new trail of `i` is the old trail of an entry with the new parent and the same label
    obtain ⟨e, he, -, hte⟩ := hT.relinked_trail hroot hsize hlabel hle hwalk hi
    rw [trail_pos h0 (hlt' i h0 hi), hsame _ (by omega) (by omega), hlabel i hi] at hte
    have he0 : 0 < e := by
      rcases Nat.eq_zero_or_pos e with rfl | h
      · simp at hte
      · exact h
    have hle' := hT.parent_lt e he0 he
    rw [trail_pos he0 hle'] at hte
    obtain ⟨hp, hl⟩ := List.append_inj' hte rfl
    have hpe : T.parent e = T'.parent i := hT.trail_inj (by omega) (by omega) hp.symm
    have hkept : T'.parent e = T.parent e := ih (T.parent e) (by omega) he rfl
    -- so both have the same new trail
    have heq : e = i := by
      refine hinj e i he hi ?_
      rw [trail_pos he0 (hlt' e he0 he), trail_pos h0 (hlt' i h0 hi), hkept, hpe, hlabel e he, hlabel i hi]
      exact congrArg _ hl.symm
    rw [heq] at hpe
    omega

end Relink

end ParentTable
