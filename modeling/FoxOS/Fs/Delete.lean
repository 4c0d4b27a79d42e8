import FoxOS.Fs.Create

/-!
# FoxOS.Fs.Delete — deletion by compaction

`fs_delete_file` moves every later slot down by one and, in each round of that loop, decrements every link
behind the slot just filled.  `shiftLoop_files` says what is left in a slot: the entry behind it, with a
link that went through all rounds (`linkLoop`).  A link behind the deleted slot is meant to go down by one.
That is what the rounds do to a link at most two slots behind the deleted one (`linkLoop_near`); a link
further behind is decremented again and again and ends at another slot (`linkLoop_far`).

Under `LinksNear` the table after the call is the table with the leaf removed, so every other path keeps
its meaning (`resolves_deleted`); without it some path is lost (`linksNear_of_kept`).  `delete_frame` is the
exact condition for whole runs.
-/

namespace FoxOS

open Segs ParentTable Runs

variable {s s' : FS} {path : List Byte} {k : ℕ} {r : Int}

/-! ### The shifting loop -/

/-- What `n` rounds of the loop from slot `i` on do to a link. -/
def linkLoop : ℕ → ℕ → ℕ → ℕ
  | 0, _, p => p
  | n + 1, i, p => linkLoop n (i + 1) (if i < p then p - 1 else p)

/-- The entry that `n` rounds of the loop from slot `i` on leave in slot `j`. -/
def shiftFrom (n i j : ℕ) : ℕ := if i ≤ j ∧ j < i + n then j + 1 else j

theorem decLinks_apply {count i j : ℕ} {files : ℕ → File} (hj : j < count) :
    decLinks count i files j =
      { files j with parentIndex := if i < (files j).parentIndex then (files j).parentIndex - 1
                                    else (files j).parentIndex } := by
  unfold decLinks
  by_cases h : i < (files j).parentIndex
  · rw [if_pos ⟨hj, h⟩, if_pos h]
  · rw [if_neg (fun h' => h h'.2), if_neg h]

/-- **The shifting loop**: every live slot gets its entry, with the link after all rounds. -/
theorem shiftLoop_files {count : ℕ} : ∀ (n i : ℕ) (files : ℕ → File), i + n < count → ∀ j < count,
    shiftLoop count n i files j =
      { files (shiftFrom n i j) with parentIndex := linkLoop n i (files (shiftFrom n i j)).parentIndex } := by
  intro n
  induction n with
  | zero =>
    intro i files _ j _
    rw [show shiftFrom 0 i j = j by unfold shiftFrom; rw [if_neg (by omega)]]
    rfl
  | succ n ih =>
    intro i files hcount j hj
    have hlt : shiftFrom n (i + 1) j < count := by
      unfold shiftFrom
      split_ifs <;> omega
    -- the round fills slot `i` from slot `i + 1`; no other slot is read from slot `i` later
    have hsrc : Function.update files i (files (i + 1)) (shiftFrom n (i + 1) j) =
        files (shiftFrom (n + 1) i j) := by
      by_cases hji : j = i
      · subst hji
        rw [show shiftFrom n (j + 1) j = j by unfold shiftFrom; rw [if_neg (by omega)],
          show shiftFrom (n + 1) j j = j + 1 by unfold shiftFrom; rw [if_pos (by omega)],
          Function.update_self]
      · have hne : shiftFrom n (i + 1) j ≠ i := by
          unfold shiftFrom
          split_ifs <;> omega
        rw [Function.update_of_ne hne]
        congr 1
        unfold shiftFrom
        split_ifs <;> omega
    rw [shiftLoop, ih (i + 1) _ (by omega) j hj, decLinks_apply hlt, hsrc]
    rfl

/-- A link in front of the rounds stays. -/
theorem linkLoop_of_le {n i p : ℕ} (h : p ≤ i) : linkLoop n i p = p := by
  induction n generalizing i with
  | zero => rfl
  | succ n ih => rw [linkLoop, if_neg (by omega), ih (by omega)]

/-- **Near links**: a link at most two slots behind the deleted slot is decremented once. -/
theorem linkLoop_near {n i p : ℕ} (hlive : p ≤ i + n) (hnear : p ≤ i + 2) (hne : p ≠ i) :
    linkLoop n i p = unskip i p := by
  unfold unskip
  by_cases hp : p < i
  · rw [if_pos hp, linkLoop_of_le (by omega)]
  · cases n with
    | zero => omega
    | succ n => rw [if_neg hp, linkLoop, if_pos (by omega), linkLoop_of_le (by omega)]

theorem linkLoop_le (n i p : ℕ) : linkLoop n i p ≤ p := by
  induction n generalizing i p with
  | zero => exact Nat.le_refl p
  | succ n ih =>
    rw [linkLoop]
    by_cases h : i < p
    · rw [if_pos h]
      exact Nat.le_trans (ih _ _) (Nat.sub_le p 1)
    · rw [if_neg h]
      exact ih _ _

/-- A link never ends behind the place where it belongs. -/
theorem linkLoop_le_unskip {n i p : ℕ} (hlive : p ≤ i + n) (hne : p ≠ i) : linkLoop n i p ≤ unskip i p := by
  unfold unskip
  by_cases hp : p < i
  · rw [if_pos hp]
    exact linkLoop_le n i p
  · cases n with
    | zero => omega
    | succ n =>
      rw [if_neg hp, linkLoop, if_pos (by omega)]
      exact linkLoop_le n (i + 1) (p - 1)

/-- **Far links**: a link more than two slots behind the deleted slot ends in front of its place. -/
theorem linkLoop_far {n i p : ℕ} (hlive : p ≤ i + n) (hfar : i + 2 < p) : linkLoop n i p < unskip i p := by
  obtain ⟨n, rfl⟩ : ∃ m, n = m + 2 := ⟨n - 2, by omega⟩
  have hle := linkLoop_le n (i + 1 + 1) (p - 1 - 1)
  rw [linkLoop, if_pos (by omega), linkLoop, if_pos (by omega), unskip, if_neg (by omega)]
  omega

/-! ### What `fs_delete_file` can do -/

/-- The state after slot `k` was deleted. -/
def deleted (s : FS) (k : ℕ) : FS where
  files := shiftLoop s.fileCount (s.fileCount - 1 - k) k s.files
  fileCount := s.fileCount - 1
  count_le := s.pred_count_le

/-- No live slot has the parent `k`. -/
def Leaf (s : FS) (k : ℕ) : Prop := ∀ i < s.fileCount, (s.files i).parentIndex ≠ k

/-- The check of `fs_delete_file`: a directory with entries. -/
abbrev InUse (s : FS) (k : ℕ) : Prop := (s.files k).type = .dir ∧
  (List.range s.fileCount).any (fun i => decide ((s.files i).parentIndex = k)) = true

theorem inUse_iff : InUse s k ↔ (s.files k).type = .dir ∧ ¬ Leaf s k := by
  simp [InUse, Leaf, List.any_eq_true]

theorem leaf_of_free (h : ¬ InUse s k) (hd : (s.files k).type = .dir) : Leaf s k :=
  not_not.mp fun hl => h (inUse_iff.mpr ⟨hd, hl⟩)

/-- **`fs_delete_file`**: nothing happens, or the path leads to a slot that is not a directory in use,
and it is deleted. -/
theorem fsDeleteFile_ok (h : fsDeleteFile s path = .ok (r, s')) :
    (r = -1 ∧ s' = s) ∨ ∃ k, 0 < k ∧ Resolves s path k ∧ ¬ InUse s k ∧ r = 0 ∧ s' = deleted s k := by
  obtain ⟨index, hi, h1⟩ := bind_ok_iff.mp h
  by_cases hle : index ≤ 0
  · rw [if_pos hle] at h1
    cases h1
    exact Or.inl ⟨rfl, rfl⟩
  rw [if_neg hle] at h1
  obtain ⟨k, rfl⟩ : ∃ k : ℕ, index = (k : Int) := ⟨index.toNat, by omega⟩
  rw [Int.toNat_natCast] at h1
  by_cases hb : InUse s k
  · rw [if_pos hb] at h1
    cases h1
    exact Or.inl ⟨rfl, rfl⟩
  · rw [if_neg hb] at h1
    cases h1
    exact Or.inr ⟨k, by omega, hi, hb, rfl, rfl⟩

/-- The call on a path that leads to a deletable slot. -/
theorem fsDeleteFile_of_leaf (hk : 0 < k) (hr : Resolves s path k)
    (hleaf : (s.files k).type = .dir → Leaf s k) : fsDeleteFile s path = .ok (0, deleted s k) := by
  have hb : ¬ InUse s k := fun h => (inUse_iff.mp h).2 (hleaf h.1)
  rw [fsDeleteFile, hr, Except.bind, if_neg (by omega), Int.toNat_natCast, if_neg hb]
  rfl

theorem fsDeleteFile_total (s : FS) (h0 : (0 : Byte) ∉ path) (hp : PathFits path) :
    ∃ r s', fsDeleteFile s path = .ok (r, s') := by
  rw [fsDeleteFile, fsParsePath_of_fits s h0 hp, Except.bind]
  generalize code (s.table.walk 0 (components path)) = index
  by_cases hle : index ≤ 0
  · exact ⟨_, _, if_pos hle⟩
  rw [if_neg hle]
  by_cases hb : InUse s index.toNat
  · exact ⟨_, _, if_pos hb⟩
  · exact ⟨_, _, if_neg hb⟩

/-- A slot that passes the check of the code has no children: a file never has any. -/
theorem FsInv.leaf (hI : FsInv s) (h : (s.files k).type = .dir → Leaf s k) : Leaf s k := by
  intro i hi hp
  have hdir := hI.dir i hi
  rw [hp] at hdir
  exact h hdir i hi hp

/-! ### Deleting with near links -/

/-- No live link lies more than two slots behind `k`. -/
def LinksNear (s : FS) (k : ℕ) : Prop := ∀ i < s.fileCount, (s.files i).parentIndex ≤ k + 2

instance (s : FS) (k : ℕ) : Decidable (LinksNear s k) :=
  inferInstanceAs (Decidable (∀ i < s.fileCount, (s.files i).parentIndex ≤ k + 2))

section Near

variable (hI : FsInv s) (hk : k < s.fileCount) (h0 : 0 < k) (hleaf : Leaf s k) (hnear : LinksNear s k)

theorem skip_lt {i : ℕ} (hi : i < s.fileCount - 1) : skip k i < s.fileCount := by
  unfold skip
  split_ifs <;> omega

include hk in
theorem shiftFrom_eq_skip {i : ℕ} (hi : i < s.fileCount - 1) :
    shiftFrom (s.fileCount - 1 - k) k i = skip k i := by
  unfold shiftFrom skip
  split_ifs <;> omega

include hk in
/-- The entry in a live slot after the deletion. -/
theorem deleted_entry {i : ℕ} (hi : i < s.fileCount - 1) :
    (deleted s k).files i = { s.files (skip k i) with
      parentIndex := linkLoop (s.fileCount - 1 - k) k (s.files (skip k i)).parentIndex } := by
  show shiftLoop s.fileCount (s.fileCount - 1 - k) k s.files i = _
  rw [shiftLoop_files _ _ _ (by omega) i (by omega), shiftFrom_eq_skip hk hi]

include hI hk hleaf hnear

theorem deleted_files {i : ℕ} (hi : i < s.fileCount - 1) :
    (deleted s k).files i =
      { s.files (skip k i) with parentIndex := unskip k (s.files (skip k i)).parentIndex } := by
  have hlt : skip k i < s.fileCount := skip_lt hi
  have hp := hI.parent_live hlt
  rw [deleted_entry hk hi, linkLoop_near (by omega) (hnear _ hlt) (hleaf _ hlt)]

/-- **The table after the deletion** is the table with the leaf taken out. -/
theorem deleted_table : (deleted s k).table.Same (s.table.remove k) := by
  refine ⟨rfl, ?_, ?_⟩
  · intro i hi
    rw [table_parent, deleted_files hI hk hleaf hnear hi]
    rfl
  · intro i hi
    rw [table_label, deleted_files hI hk hleaf hnear hi]
    rfl

include h0

/-- **Deleting** with near links keeps the invariant. -/
theorem FsInv.deleted : FsInv (deleted s k) := by
  have hfiles : ∀ i < s.fileCount - 1, (FoxOS.deleted s k).files i = _ :=
    fun i hi => deleted_files hI hk hleaf hnear hi
  have hroot : (FoxOS.deleted s k).files 0 =
      { s.files 0 with parentIndex := unskip k (s.files 0).parentIndex } := by
    rw [hfiles 0 (by omega), skip, if_pos h0]
  refine ⟨(deleted_table hI hk hleaf hnear).tree (hI.tree.remove hk h0 hleaf), ?_, ?_, ?_, ?_, ?_, ?_⟩
  · rw [hroot]; exact hI.rootDir
  · rw [hroot]; exact hI.rootName
  · intro i hi
    have hlt := skip_lt (k := k) hi
    have hne := hleaf _ hlt
    have hp := hI.parent_live hlt
    rw [hfiles i hi]
    show ((FoxOS.deleted s k).files (unskip k (s.files (skip k i)).parentIndex)).type = .dir
    rw [hfiles _ (by unfold unskip; split_ifs <;> omega), skip_unskip hne]
    exact hI.dir _ hlt
  · intro i hi
    rw [hfiles i hi]
    exact hI.names _ (skip_lt hi)
  · intro i hi
    rw [hfiles i hi]
    exact hI.noSlash _ (skip_lt hi)
  · intro i hi
    rw [hfiles i hi]
    exact hI.size_le _ (skip_lt hi)

/-- **Resolution after a deletion**: the old slots but the deleted one, under their new numbers. -/
theorem resolves_deleted {q : List Byte} (hq : (0 : Byte) ∉ q) {j : ℕ} :
    Resolves (deleted s k) q j ↔ ∃ i, Resolves s q i ∧ i ≠ k ∧ j = unskip k i := by
  have hI' := hI.deleted hk h0 hleaf hnear
  have hwalk : (s.table.remove k).walk (unskip k 0) (components q) = some j ↔
      ∃ i, s.table.walk 0 (components q) = some i ∧ i ≠ k ∧ j = unskip k i :=
    hI.tree.walk_remove hk h0 hleaf (by omega)
  rw [show unskip k 0 = 0 from if_pos h0] at hwalk
  rw [resolves_iff hI'.names hq, (deleted_table hI hk hleaf hnear).walk, hwalk]
  simp only [resolves_iff hI.names hq]

end Near

/-! ### Deletion as a frame operation on paths -/

/-- Two entries a reader cannot tell apart: name, type, size and the first `size` bytes. -/
structure SameEntry (f g : File) : Prop where
  name : f.nameStr = g.nameStr
  type : f.type = g.type
  size : f.size = g.size
  data : ∀ b < f.size, f.data b = g.data b

/-- What deleting `p` does to the paths: `p` is gone, other entries keep theirs, none is new. -/
structure DeleteFrame (s : FS) (p : CString) (s' : FS) : Prop where
  gone : ¬ ∃ j, Resolves s' p.val j
  kept : ∀ (q : CString) i, Resolves s q.val i → ¬ Resolves s p.val i →
    ∃ j, Resolves s' q.val j ∧ SameEntry (s.files i) (s'.files j)
  noNew : ∀ q : CString, (∃ j, Resolves s' q.val j) → ∃ i, Resolves s q.val i

theorem deleteFrame_of (hI : FsInv s) {p : CString} (hr : Resolves s p.val k) (h0 : 0 < k)
    (hleaf : Leaf s k) (hnear : LinksNear s k) : DeleteFrame s p (deleted s k) := by
  have hk : k < s.fileCount := hr.lt p.noNul hI.count_pos
  have hres := fun (q : CString) (j : ℕ) => resolves_deleted hI hk h0 hleaf hnear q.noNul (j := j)
  refine ⟨?_, ?_, ?_⟩
  · rintro ⟨j, hj⟩
    obtain ⟨i, hi, hne, -⟩ := (hres p j).mp hj
    exact hne (hi.unique hr)
  · intro q i hi hpi
    have hne : i ≠ k := fun h => hpi (h ▸ hr)
    have hlt : i < s.fileCount := hi.lt q.noNul hI.count_pos
    refine ⟨unskip k i, (hres q _).mpr ⟨i, hi, hne, rfl⟩, ?_⟩
    rw [deleted_files hI hk hleaf hnear (by unfold unskip; split_ifs <;> omega), skip_unskip hne]
    exact ⟨rfl, rfl, rfl, fun _ _ => rfl⟩
  · rintro q ⟨j, hj⟩
    obtain ⟨i, hi, -, -⟩ := (hres q j).mp hj
    exact ⟨i, hi⟩

/-! ### Far links -/

theorem Named.deleted (hN : Named s) (hk : k < s.fileCount) : Named (deleted s k) := by
  intro i h0 hi
  rw [deleted_entry hk hi]
  exact hN (skip k i) (by unfold skip; split_ifs <;> omega) (skip_lt hi)

section Far

variable (hI : FsInv s) (hN : Named s) (h0 : 0 < k) (hk : k < s.fileCount) (hleaf : Leaf s k)
include hI hN h0

/-- The names of the other slots are not the name of the root. -/
theorem remove_label_ne {i : ℕ} (hi0 : 0 < i) (hi : i < s.fileCount - 1) :
    (s.table.remove k).label i ≠ (s.table.remove k).label 0 := by
  have hroot : (s.table.remove k).label 0 = [] := by
    show (s.files (skip k 0)).nameStr = []
    rw [skip, if_pos h0]
    exact hI.rootName
  rw [hroot]
  exact hN (skip k i) (by unfold skip; split_ifs <;> omega) (skip_lt hi)

include hk hleaf

/-- The trail of a slot that stays is the trail of an old slot other than the deleted one. -/
theorem remove_trail {i : ℕ} (hi : i < s.fileCount - 1) :
    ∃ e < s.fileCount, e ≠ k ∧ (s.table.remove k).trail i = s.table.trail e := by
  have hT := hI.tree.remove hk h0 hleaf
  have hwalk : (s.table.remove k).walk (unskip k 0) ((s.table.remove k).trail i) = some i ↔
      ∃ e, s.table.walk 0 ((s.table.remove k).trail i) = some e ∧ e ≠ k ∧ i = unskip k e :=
    hI.tree.walk_remove hk h0 hleaf (by omega)
  rw [show unskip k 0 = 0 from if_pos h0] at hwalk
  obtain ⟨e, hw, hne, -⟩ := hwalk.mp (hT.walk_trail i hi)
  refine ⟨e, hI.walk_lt hw, hne, trail_of_walk hI.tree.parent_lt (fun c hc => ?_) hw⟩
  obtain ⟨j, hj0, hj, rfl⟩ := hT.label_of_trail i hi c hc
  have hlabel := remove_label_ne hI hN h0 hj0 hj
  rwa [show (s.table.remove k).label 0 = s.table.label 0 by
    show s.table.label (skip k 0) = _; rw [skip, if_pos h0]] at hlabel

/-- **Far links lose a path**: if all other entries keep their paths, the links are near. -/
theorem linksNear_of_kept (hkept : ∀ e < s.fileCount, e ≠ k → ∃ j, Resolves (deleted s k) (canonPath s e) j) :
    LinksNear s k := by
  have hlinks : ∀ i < s.fileCount - 1,
      (deleted s k).table.parent i = (s.table.remove k).parent i := by
    intro i hi
    refine (hI.tree.remove hk h0 hleaf).links_kept ?_ rfl ?_ ?_ ?_ hi
    · exact fun j hj0 hj => remove_label_ne hI hN h0 hj0 hj
    · intro j hj
      rw [table_label, deleted_entry hk hj]
      rfl
    · intro j hj
      have hlive := hI.parent_live (skip_lt (k := k) hj)
      rw [table_parent, deleted_entry hk hj]
      exact linkLoop_le_unskip (by omega) (hleaf _ (skip_lt hj))
    · intro j hj
      obtain ⟨e, he, hne, htrail⟩ := remove_trail hI hN h0 hk hleaf hj
      obtain ⟨x, hx⟩ := hkept e he hne
      have hw := fsParsePath_ok (nul_not_mem_canonPath hI he) hx
      rw [components_canonPath hI hN he, ← htrail] at hw
      exact ⟨x, code_eq_natCast.mp hw.symm⟩
  intro e he
  by_contra hfar
  have hlive := hI.parent_live he
  have hne : e ≠ k := by
    rintro rfl
    have := hI.tree.parent_lt e h0 he
    rw [table_parent] at this
    omega
  have hlt : unskip k e < s.fileCount - 1 := by
    unfold unskip
    split_ifs <;> omega
  have hlink := hlinks (unskip k e) hlt
  rw [table_parent, deleted_entry hk hlt, skip_unskip hne] at hlink
  have hplace : (s.table.remove k).parent (unskip k e) = unskip k (s.files e).parentIndex := by
    show unskip k (s.table.parent (skip k (unskip k e))) = _
    rw [skip_unskip hne, table_parent]
  rw [hplace] at hlink
  exact absurd hlink (Nat.ne_of_lt (linkLoop_far (by omega) (by omega)))

end Far

/-- **One deletion** is a frame operation exactly when the links are near. -/
theorem deleteFrame_iff (hI : FsInv s) (hN : Named s) {p : CString} (hr : Resolves s p.val k) (h0 : 0 < k)
    (hleaf : Leaf s k) : DeleteFrame s p (deleted s k) ↔ LinksNear s k := by
  have hk : k < s.fileCount := hr.lt p.noNul hI.count_pos
  refine ⟨fun hframe => linksNear_of_kept hI hN h0 hk hleaf fun e he hne => ?_, deleteFrame_of hI hr h0 hleaf⟩
  have hpe : ¬ Resolves s p.val e := fun h => hne (h.unique hr)
  obtain ⟨j, hj, -⟩ := hframe.kept ⟨canonPath s e, nul_not_mem_canonPath hI he⟩ e
    (resolves_canonPath hI hN he) hpe
  exact ⟨j, hj⟩

/-! ### Runs -/

/-- The calls `fs_mkdir`, `fs_create`, `fs_write` and `fs_delete_file`. -/
def FsOp.Edits : FsOp → Prop
  | .deleteFile _ => True
  | op => op.Builds

instance : DecidablePred FsOp.Edits
  | .deleteFile _ => isTrue trivial
  | .mkdir _ | .create _ | .write _ _ => isTrue trivial
  | .createFile _ _ _ | .read _ _ | .delete _ | .listDir _ _ | .parsePath _ => isFalse id

/-- If the call is a deletion of a slot that is not in use, the live links are near the slot. -/
def FsOp.DeletesNear (s : FS) : FsOp → Prop
  | .deleteFile p => ∀ k, 0 < k → Resolves s p.val k → ¬ InUse s k → LinksNear s k
  | _ => True

/-- **One deletion**: nothing happens, or a leaf is deleted. -/
theorem deleteFile_cases (hI : FsInv s) {p : CString} (h : fsDeleteFile s p.val = .ok (r, s')) :
    (r = -1 ∧ s' = s) ∨ ∃ k, 0 < k ∧ k < s.fileCount ∧ Resolves s p.val k ∧ ¬ InUse s k ∧ Leaf s k ∧
      r = 0 ∧ s' = deleted s k := by
  rcases fsDeleteFile_ok h with h1 | ⟨k, h0, hres, hfree, hr, hs⟩
  · exact Or.inl h1
  · have hleaf : Leaf s k := hI.leaf (leaf_of_free hfree)
    exact Or.inr ⟨k, h0, hres.lt p.noNul hI.count_pos, hres, hfree, hleaf, hr, hs⟩

theorem FsOp.Edits.cases {op : FsOp} (h : op.Edits) : op.Builds ∨ ∃ p, op = .deleteFile p := by
  cases op with
  | deleteFile p => exact Or.inr ⟨p, rfl⟩
  | _ => exact Or.inl h

/-- **One editing call** with near links keeps the invariant. -/
theorem edits_step (hI : FsInv s) (hN : Named s) {op : FsOp} (hop : op.Edits) (hnear : op.DeletesNear s)
    (h : fsNext s op = .ok s') : FsInv s' ∧ Named s' := by
  rcases hop.cases with hb | ⟨p, rfl⟩
  · have hchange := builds_step hI hb h
    exact ⟨hchange.inv hI, hchange.named hN⟩
  · obtain ⟨r, hr⟩ := fsNext_update.mp h
    rcases deleteFile_cases hI hr with ⟨-, rfl⟩ | ⟨k, h0, hk, hres, hfree, hleaf, -, rfl⟩
    · exact ⟨hI, hN⟩
    · exact ⟨hI.deleted hk h0 hleaf (hnear k h0 hres hfree), hN.deleted hk⟩

theorem edits_total {op : FsOp} (hop : op.Edits) (hp : op.PathOk) : ∃ s', fsNext s op = .ok s' := by
  rcases hop.cases with hb | ⟨p, rfl⟩
  · exact builds_total hb hp
  · obtain ⟨r, s', h⟩ := fsDeleteFile_total s p.noNul hp.2
    exact ⟨s', fsNext_update.mpr ⟨r, h⟩⟩

/-- **Deletion is a frame operation on paths**, in every state reached by `fs_mkdir`, `fs_create`, `fs_write`
and `fs_delete_file` calls whose paths fit, exactly when no live link lies more than two slots behind the
deleted slot; the deletions on the way meet the same condition. -/
theorem delete_frame (m : ℕ → File) (ops : List FsOp) (p : CString)
    (hops : ∀ op ∈ ops, op.Edits ∧ op.PathOk)
    (hnear : AllSteps fsNext (fun s op => op.DeletesNear s) (fsInit m) ops) :
    ∃ s, fsRun (fsInit m) ops = .ok s ∧
      ∀ s' k, fsDeleteFile s p.val = .ok (0, s') → Resolves s p.val k →
        (DeleteFrame s p s' ↔ LinksNear s k) := by
  obtain ⟨s, hrun, -⟩ : ∃ s, exec fsNext (fsInit m) ops = .ok s ∧ True :=
    exec_total (I := fun _ => True)
      (fun s op _ hop => (edits_total (s := s) hop.1 hop.2).imp fun _ h => ⟨h, trivial⟩) trivial hops
  obtain ⟨hI, hN⟩ : FsInv s ∧ Named s := by
    have hguard := allSteps_and (G := fun _ op => FsOp.Edits op ∧ op.PathOk)
      (allSteps_of_forall hops) hnear
    refine exec_inv (I := fun s => FsInv s ∧ Named s) ?_ ⟨fsInit_inv m, fsInit_named m⟩ hguard hrun
    rintro s op s₁ ⟨hI, hN⟩ ⟨⟨hop, -⟩, hn⟩ hstep
    exact edits_step hI hN hop hn hstep
  refine ⟨s, hrun, fun s' k hdel hk => ?_⟩
  rcases deleteFile_cases hI hdel with ⟨h, -⟩ | ⟨k', h0, -, hk', -, hleaf, -, rfl⟩
  · omega
  · obtain rfl : k = k' := hk.unique hk'
    exact deleteFrame_iff hI hN hk h0 hleaf

/-- `/b` moves from slot `2` to slot `1`, and the link of `/b/c` follows. -/
theorem delete_frame_sample : ∃ s s',
    fsRun (fsInit zeroFiles) [.create (lit "/x"), .mkdir (lit "/b"), .create (lit "/b/c")] = .ok s ∧
    fsDeleteFile s (str "/x") = .ok (0, s') ∧ DeleteFrame s (lit "/x") s' := by
  obtain ⟨s, hs, hiff⟩ := delete_frame zeroFiles
    [.create (lit "/x"), .mkdir (lit "/b"), .create (lit "/b/c")] (lit "/x") (by decide +kernel)
    ⟨trivial, fun _ _ => ⟨trivial, fun _ _ => ⟨trivial, fun _ _ => trivial⟩⟩⟩
  have hrun : ((fsRun (fsInit zeroFiles)
      [.create (lit "/x"), .mkdir (lit "/b"), .create (lit "/b/c")]).bind fun s =>
      (fsDeleteFile s (str "/x")).bind fun x =>
        .ok (x.1, fsParsePath s (str "/x"), decide (LinksNear s 1))) = .ok (0, .ok 1, true) := by
    decide +kernel
  obtain ⟨s₁, hs₁, h1⟩ := bind_ok_iff.mp hrun
  cases hs.symm.trans hs₁
  obtain ⟨⟨r, s'⟩, hdel, h2⟩ := bind_ok_iff.mp h1
  simp only [Except.ok.injEq, Prod.mk.injEq, decide_eq_true_eq] at h2
  obtain ⟨rfl, hx, hnear⟩ := h2
  exact ⟨s, s', hs, hdel, (hiff s' 1 hdel hx).mpr hnear⟩

/-- A link three slots behind the deleted slot ends at another directory: `/d/e` becomes `/c/e`. -/
theorem delete_moves_link : ∃ s s', fsRun (fsInit zeroFiles)
      [.create (lit "/x"), .mkdir (lit "/b"), .mkdir (lit "/c"), .mkdir (lit "/d"),
        .create (lit "/d/e")] = .ok s ∧
    fsDeleteFile s (str "/x") = .ok (0, s') ∧ Resolves s (str "/d/e") 5 ∧
    fsParsePath s' (str "/d/e") = .ok (-1) ∧ fsParsePath s (str "/c/e") = .ok (-1) ∧
    Resolves s' (str "/c/e") 4 ∧ ¬ DeleteFrame s (lit "/x") s' := by
  have hrun : ((fsRun (fsInit zeroFiles)
      [.create (lit "/x"), .mkdir (lit "/b"), .mkdir (lit "/c"), .mkdir (lit "/d"),
        .create (lit "/d/e")]).bind fun s =>
      (fsDeleteFile s (str "/x")).bind fun x =>
        .ok (x.1, [fsParsePath s (str "/d/e"), fsParsePath x.2 (str "/d/e"), fsParsePath s (str "/c/e"),
          fsParsePath x.2 (str "/c/e"), fsParsePath s (str "/x")])) =
      .ok (0, [.ok 5, .ok (-1), .ok (-1), .ok 4, .ok 1]) := by
    decide +kernel
  obtain ⟨s, hs, h1⟩ := bind_ok_iff.mp hrun
  obtain ⟨⟨r, s'⟩, hdel, h2⟩ := bind_ok_iff.mp h1
  simp only [Except.ok.injEq, Prod.mk.injEq, List.cons.injEq, and_true] at h2
  obtain ⟨rfl, hde, hde', hce, hce', hx⟩ := h2
  refine ⟨s, s', hs, hdel, hde, hde', hce, hce', fun hf => ?_⟩
  have hne : ¬ Resolves s (str "/x") 5 := by
    intro h
    cases hx.symm.trans h
  obtain ⟨j, hj, -⟩ := hf.kept (lit "/d/e") 5 hde hne
  cases hde'.symm.trans hj

end FoxOS
