import FoxOS.Fs.Delete

/-!
# FoxOS.Fs.Tombstone — deletion by `fs_delete`

`fs_delete` clears the slot and leaves it in its place: in the table the entry is buried (`buried_table`).
Nothing is checked but the root, so the entries of a deleted directory lose their parent; `delete_clean_iff`
says that this is the only way a path is lost.  The slot is never used again: capacity is decided by
`file_count` alone, which `fs_delete` leaves as it is, so a table full of dead slots takes no new entry
(`capacity_iff`).
-/

namespace FoxOS

open Segs ParentTable Runs

variable {s s' : FS} {path : List Byte} {k : ℕ} {r : Int}

/-- The state after slot `k` was cleared. -/
def buried (s : FS) (k : ℕ) : FS := s.setFile k (s.files k).clear

theorem buried_files_of_ne {i : ℕ} (h : i ≠ k) : (buried s k).files i = s.files i := Function.update_of_ne h _ _

theorem buried_files_self : (buried s k).files k = (s.files k).clear := Function.update_self _ _ _

/-- **`fs_delete`**: nothing happens, or the path leads to a slot other than the root, and it is cleared. -/
theorem fsDelete_ok (h : fsDelete s path = .ok (r, s')) :
    (r = -1 ∧ s' = s) ∨ ∃ k, 0 < k ∧ Resolves s path k ∧ r = 0 ∧ s' = buried s k := by
  obtain ⟨index, hi, h1⟩ := bind_ok_iff.mp h
  by_cases hneg : index < 0
  · rw [if_pos hneg] at h1
    cases h1
    exact Or.inl ⟨rfl, rfl⟩
  rw [if_neg hneg] at h1
  by_cases h0 : index = 0
  · rw [if_pos h0] at h1
    cases h1
    exact Or.inl ⟨rfl, rfl⟩
  rw [if_neg h0] at h1
  cases h1
  obtain ⟨k, rfl⟩ : ∃ k : ℕ, index = (k : Int) := ⟨index.toNat, by omega⟩
  exact Or.inr ⟨k, by omega, hi, rfl, by rw [Int.toNat_natCast]; rfl⟩

theorem fsDelete_of_resolves (h0 : 0 < k) (h : Resolves s path k) : fsDelete s path = .ok (0, buried s k) := by
  rw [fsDelete, h, Except.bind, if_neg (by omega), if_neg (by omega), Int.toNat_natCast]
  rfl

/-- **The table after the call**: the entry is buried under the empty name. -/
theorem buried_table : (buried s k).table = s.table.bury k [] noParent := by
  unfold FS.table bury
  congr 1
  · funext i
    by_cases hi : i = k
    · subst hi
      simp only [buried_files_self, Function.update_self]
      rfl
    · simp only [buried_files_of_ne hi, Function.update_of_ne hi]
  · funext i
    by_cases hi : i = k
    · subst hi
      simp only [buried_files_self, Function.update_self]
      exact clear_nameStr _
    · simp only [buried_files_of_ne hi, Function.update_of_ne hi]

theorem NamesOk.buried (h : NamesOk s) : NamesOk (buried s k) := by
  intro i hi
  by_cases hik : i = k
  · subst hik
    rw [buried_files_self]
    exact ⟨0, by decide, by simp [File.clear]⟩
  · rw [buried_files_of_ne hik]
    exact h i hi

theorem component_ne_nil {c : List Byte} (h : c ∈ components path) : c ≠ [] := (segs_spec h).2.1

/-! ### Orphans -/

/-- What deleting `p` is meant to do: `p` is gone, every other entry keeps its paths and its contents, and every
entry that is left has a live directory as its parent. -/
structure DeleteClean (s : FS) (p : CString) (s' : FS) : Prop where
  gone : ¬ ∃ j, Resolves s' p.val j
  kept : ∀ (q : CString) i, Resolves s q.val i → ¬ Resolves s p.val i → Resolves s' q.val i ∧
    s'.files i = s.files i
  parents : ∀ i < s'.fileCount, (s'.files i).type ≠ .none →
    (s'.files i).parentIndex < s'.fileCount ∧ (s'.files (s'.files i).parentIndex).type = .dir

section Orphans

variable (hI : FsInv s) (h0 : 0 < k)
include hI h0

/-- **Resolution after `fs_delete`** of a slot without entries. -/
theorem resolves_buried (hleaf : Leaf s k) {q : List Byte} (hq : (0 : Byte) ∉ q) {i : ℕ} :
    Resolves (buried s k) q i ↔ Resolves s q i ∧ i ≠ k := by
  rw [resolves_iff hI.names.buried hq, resolves_iff hI.names hq, buried_table]
  exact hI.tree.walk_bury hleaf (fun c hc => component_ne_nil hc) (Nat.ne_of_lt h0)

theorem deleteClean_of_leaf {p : CString} (hp : Resolves s p.val k) (hleaf : Leaf s k) :
    DeleteClean s p (buried s k) := by
  refine ⟨?_, fun q i hq hpi => ?_, fun i hi htype => ?_⟩
  · rintro ⟨j, hj⟩
    obtain ⟨hj', hne⟩ := (resolves_buried hI h0 hleaf p.noNul).mp hj
    exact hne (hj'.unique hp)
  · have hik : i ≠ k := fun h => hpi (h ▸ hp)
    exact ⟨(resolves_buried hI h0 hleaf q.noNul).mpr ⟨hq, hik⟩, buried_files_of_ne hik⟩
  · have hik : i ≠ k := by
      rintro rfl
      rw [buried_files_self] at htype
      exact htype rfl
    rw [buried_files_of_ne hik, buried_files_of_ne (hleaf i hi)]
    exact ⟨hI.parent_live hi, hI.dir i hi⟩

end Orphans

theorem leaf_of_deleteClean (hI : FsInv s) (hN : Named s) (h0 : 0 < k) {p : CString} (hp : Resolves s p.val k)
    (hclean : DeleteClean s p (buried s k)) : Leaf s k := by
  have hk : k < s.fileCount := hp.lt p.noNul hI.count_pos
  -- the canonical path of every other slot is kept
  suffices hkept :
    ∀ i < s.fileCount, i ≠ k → (s.table.bury k [] noParent).walk 0 (s.table.trail i) = some i from
    hI.tree.leaf_of_bury hN h0 hk hkept
  intro i hi hik
  have hpi : ¬ Resolves s p.val i := fun h => hik (h.unique hp)
  have hkept := (hclean.kept ⟨canonPath s i, nul_not_mem_canonPath hI hi⟩ i (resolves_canonPath hI hN hi) hpi).1
  rwa [resolves_iff hI.names.buried (nul_not_mem_canonPath hI hi), buried_table,
    components_canonPath hI hN hi] at hkept

/-- **No orphans**: in every state that building calls reach, `fs_delete` does what it is meant to do exactly
when the slot it deletes is the parent of no entry. -/
theorem delete_clean_iff (hs : Built s) (p : CString) (hdel : fsDelete s p.val = .ok (0, s')) :
    DeleteClean s p s' ↔ ∀ k, Resolves s p.val k → Leaf s k := by
  obtain ⟨hI, hN⟩ := hs.inv
  rcases fsDelete_ok hdel with ⟨h, -⟩ | ⟨k, h0, hp, -, rfl⟩
  · omega
  constructor
  · intro hclean k' hp'
    obtain rfl : k = k' := hp.unique hp'
    exact leaf_of_deleteClean hI hN h0 hp hclean
  · intro hleaf
    exact deleteClean_of_leaf hI h0 hp (hleaf k hp)

theorem delete_clean_sample :
    ∃ s s', fsRun (fsInit zeroFiles) [.mkdir (lit "/d"), .create (lit "/d/f")] = .ok s ∧
    fsDelete s (str "/d/f") = .ok (0, s') ∧ DeleteClean s (lit "/d/f") s' := by
  have hrun : ((fsRun (fsInit zeroFiles) [.mkdir (lit "/d"), .create (lit "/d/f")]).bind fun s =>
      (fsDelete s (str "/d/f")).bind fun x => .ok (x.1, fsParsePath s (str "/d/f"),
        decide (∀ i < s.fileCount, (s.files i).parentIndex ≠ 2))) = .ok (0, .ok 2, true) := by
    decide +kernel
  obtain ⟨s, hs, h1⟩ := bind_ok_iff.mp hrun
  obtain ⟨⟨r, s'⟩, hdel, h2⟩ := bind_ok_iff.mp h1
  simp only [Except.ok.injEq, Prod.mk.injEq, decide_eq_true_eq] at h2
  obtain ⟨rfl, hp, hleaf⟩ := h2
  refine ⟨s, s', hs, hdel,
    (delete_clean_iff ⟨zeroFiles, _, by decide, hs⟩ (lit "/d/f") hdel).mpr fun k hk => ?_⟩
  obtain rfl : 2 = k := Resolves.unique hp hk
  exact hleaf

/-- `/d` is deleted with `/d/f` in it: `/d/f` no longer resolves, and its slot is live under a dead parent. -/
theorem delete_orphan : ∃ s s', fsRun (fsInit zeroFiles) [.mkdir (lit "/d"), .create (lit "/d/f")] = .ok s ∧
    fsDelete s (str "/d") = .ok (0, s') ∧ Resolves s (str "/d/f") 2 ∧ fsParsePath s' (str "/d/f") = .ok (-1) ∧
    (s'.files 2).type = .file ∧ (s'.files (s'.files 2).parentIndex).type = .none ∧
      ¬ DeleteClean s (lit "/d") s' := by
  have hrun : ((fsRun (fsInit zeroFiles) [.mkdir (lit "/d"), .create (lit "/d/f")]).bind fun s =>
      (fsDelete s (str "/d")).bind fun x => .ok (x.1, fsParsePath s (str "/d/f"), fsParsePath x.2 (str "/d/f"),
        x.2.fileCount, (x.2.files 2).type, (x.2.files (x.2.files 2).parentIndex).type)) =
      .ok (0, .ok 2, .ok (-1), 3, .file, .none) := by
    decide +kernel
  obtain ⟨s, hs, h1⟩ := bind_ok_iff.mp hrun
  obtain ⟨⟨r, s'⟩, hdel, h2⟩ := bind_ok_iff.mp h1
  simp only [Except.ok.injEq, Prod.mk.injEq] at h2
  obtain ⟨rfl, hf, hf', hcount, htype, hparent⟩ := h2
  refine ⟨s, s', hs, hdel, hf, hf', htype, hparent, fun hclean => ?_⟩
  have hdir := (hclean.parents 2 (by omega) (by rw [htype]; nofun)).2
  rw [hparent] at hdir
  cases hdir

/-! ### Capacity -/

/-- The calls `fs_mkdir`, `fs_create` and `fs_delete`. -/
def FsOp.Recycles : FsOp → Prop
  | .mkdir _ | .create _ | .delete _ => True
  | _ => False

instance : DecidablePred FsOp.Recycles
  | .mkdir _ | .create _ | .delete _ => isTrue trivial
  | .createFile _ _ _ | .write _ _ | .read _ _ | .deleteFile _ | .listDir _ _ | .parsePath _ => isFalse id

/-- The number of slots in use: those with a type. -/
def usedSlots (s : FS) : ℕ := (List.range maxFiles).countP fun i => (s.files i).type ≠ .none

/-- While a slot of the table is not in use, every fresh name can be created in the root. -/
def HasCapacity (s : FS) : Prop := usedSlots s < maxFiles → ∀ n : CString, n.val ≠ [] → slash ∉ n.val →
  n.val.length < maxFilename → (¬ ∃ i, Resolves s (slash :: n.val) i) →
  ∃ r s', fsCreate s (slash :: n.val) = .ok (r, s') ∧ 0 ≤ r

/-- What the runs keep: the root and the names. -/
structure RootInv (s : FS) : Prop where
  count : 0 < s.fileCount
  rootDir : (s.files 0).type = .dir
  names : NamesOk s

theorem rootInv_init (m : ℕ → File) : RootInv (fsInit m) := by
  have h := fsInit_inv m
  exact ⟨h.count_pos, h.rootDir, h.names⟩

theorem RootInv.created {name : List Byte} {type : FileType} {p : ℕ}
    {hroom : s.fileCount < maxFiles} (h : RootInv s)
    (hlen : name.length < maxFilename) : RootInv (created s name type p hroom) := by
  refine ⟨Nat.succ_pos _, ?_, fun i hi => ?_⟩
  · rw [created_files_of_ne (Nat.ne_of_lt h.count)]
    exact h.rootDir
  · rcases Nat.lt_succ_iff_lt_or_eq.mp hi with hi | rfl
    · rw [created_files_of_ne (Nat.ne_of_lt hi)]
      exact h.names i hi
    · rw [created_files_last]
      exact terminated_strcpy hlen _

theorem RootInv.createAt {type : FileType} {path : CString} (h : RootInv s)
    (hs : createAt type s path.val = .ok (r, s')) : RootInv s' := by
  rcases createAt_ok path.noNul hs with ⟨-, rfl⟩ | ⟨p, hc, -, -, hlen, -, rfl⟩
  · exact h
  · exact h.created hlen

theorem RootInv.buried (h : RootInv s) (h0 : 0 < k) : RootInv (buried s k) := by
  refine ⟨h.count, ?_, h.names.buried⟩
  rw [buried_files_of_ne (Nat.ne_of_lt h0)]
  exact h.rootDir

theorem RootInv.step {op : FsOp} (h : RootInv s) (hop : op.Recycles) (hs : fsNext s op = .ok s') :
    RootInv s' := by
  cases op with
  | mkdir path =>
    obtain ⟨r, hr⟩ := fsNext_update.mp hs
    exact h.createAt hr
  | create path =>
    obtain ⟨r, hr⟩ := fsNext_update.mp hs
    exact h.createAt hr
  | delete path =>
    obtain ⟨r, hr⟩ := fsNext_update.mp hs
    rcases fsDelete_ok hr with ⟨-, rfl⟩ | ⟨k, h0, -, -, rfl⟩
    · exact h
    · exact h.buried h0
  | createFile _ _ _ => exact hop.elim
  | write _ _ => exact hop.elim
  | read _ _ => exact hop.elim
  | deleteFile _ => exact hop.elim
  | listDir _ _ => exact hop.elim
  | parsePath _ => exact hop.elim

section RootEntry

variable {n : CString} (hne : n.val ≠ []) (hs : slash ∉ n.val)
include hne hs

theorem components_root_entry : components (slash :: n.val) = [n.val] :=
  (segs_append_sep [] n.val).trans (segs_of_not_mem hs hne)

/-- A path of one name in the root resolves to the root's child. -/
theorem resolves_root_entry (h : RootInv s) {i : ℕ} :
    Resolves s (slash :: n.val) i ↔ s.table.child 0 n.val = some i := by
  have h0 : (0 : Byte) ∉ slash :: n.val := by
    rw [List.mem_cons, not_or]
    exact ⟨by decide, n.noNul⟩
  rw [resolves_iff h.names h0, components_root_entry hne hs, walk_singleton]

/-- `fs_create` of one name in the root. -/
theorem fsCreate_root_entry (hlen : n.val.length < maxFilename) :
    fsCreate s (slash :: n.val) = fsCreateFile s n.val .file 0 := by
  obtain ⟨hd, hnm⟩ := parts_of_split (a := []) hs
  have h0 : (0 : Byte) ∉ slash :: n.val := by
    rw [List.mem_cons, not_or]
    exact ⟨by decide, n.noNul⟩
  have hd' : dirPart (slash :: n.val) = [] := hd
  have hnm' : namePart (slash :: n.val) = n.val := hnm
  rw [fsCreate, createAt_of_fits h0 (List.cons_ne_nil _ _) (by rw [hd']; decide) (by rwa [hnm'])
    (by rw [hd']; exact fun c hc => absurd hc (by simp [components])) (by rwa [hnm']), hd', hnm']
  simp [components]

end RootEntry

theorem usedSlots_lt_iff : usedSlots s < maxFiles ↔ ∃ k < maxFiles, (s.files k).type = .none := by
  have hle : usedSlots s ≤ (List.range maxFiles).length := List.countP_le_length
  have heq : usedSlots s = (List.range maxFiles).length ↔ _ := List.countP_eq_length
  rw [List.length_range] at hle heq
  rw [Nat.lt_iff_le_and_ne, Ne, heq]
  simp only [List.mem_range, decide_not, Bool.not_eq_eq_eq_not, Bool.not_true,
    decide_eq_false_iff_not, not_forall, not_not, exists_prop]
  exact and_iff_right hle

/-- **The condition on a state** is exact: room behind the count, or no dead slot before it. -/
theorem hasCapacity_iff (h : RootInv s) :
    HasCapacity s ↔ s.fileCount < maxFiles ∨ ∀ k < s.fileCount, (s.files k).type ≠ .none := by
  rcases Nat.lt_or_ge s.fileCount maxFiles with hroom | hfull
  · refine iff_of_true (fun _ n hne hsl hlen hfresh => ?_) (Or.inl hroom)
    have hnone : s.table.child 0 n.val = none := by
      cases hc : s.table.child 0 n.val with
      | none => rfl
      | some i => exact absurd ⟨i, (resolves_root_entry hne hsl h).mpr hc⟩ hfresh
    have hc : CanCreate s n.val 0 := ⟨hroom, by decide, h.rootDir, hnone⟩
    exact ⟨_, _, (fsCreate_root_entry hne hsl hlen).trans (fsCreateFile_of_can n.noNul hc hlen),
      Int.natCast_nonneg _⟩
  · have hcount : s.fileCount = maxFiles := Nat.le_antisymm s.count_le hfull
    rw [or_iff_right (Nat.not_lt_of_le hfull), hcount]
    constructor
    · intro hcap k hk hdead
      obtain ⟨n, hne, hsl, hlen, hfresh⟩ := exists_fresh_name s 0
      obtain ⟨r, s', hs', hr⟩ := hcap (usedSlots_lt_iff.mpr ⟨k, hk, hdead⟩) n hne hsl hlen (by
        rintro ⟨i, hi⟩
        rw [resolves_root_entry hne hsl h, hfresh] at hi
        cases hi)
      rw [fsCreate_root_entry hne hsl hlen,
        fsCreateFile_of_not n.noNul (fun hc => absurd hc.room (Nat.not_lt_of_le hfull))] at hs'
      cases hs'
      exact absurd hr (by decide)
    · intro hall hused
      obtain ⟨k, hk, hdead⟩ := usedSlots_lt_iff.mp hused
      exact absurd hdead (hall k hk)

/-- **Capacity**: after every run of `fs_mkdir`, `fs_create` and `fs_delete` calls, a slot that is not in use
can be used exactly when the count has not reached the end of the table, or no slot before it is dead. -/
theorem capacity_iff (m : ℕ → File) (ops : List FsOp) (hops : ∀ op ∈ ops, op.Recycles)
    (hrun : fsRun (fsInit m) ops = .ok s) :
    HasCapacity s ↔ s.fileCount < maxFiles ∨ ∀ k < s.fileCount, (s.files k).type ≠ .none := by
  refine hasCapacity_iff (exec_inv (I := RootInv) ?_ (rootInv_init m) (allSteps_of_forall hops) hrun)
  intro s op s₁ h hop hs
  exact h.step hop hs

theorem capacity_sample : ∃ s, fsRun (fsInit zeroFiles) [.create (lit "/a"), .delete (lit "/a")] = .ok s ∧
    HasCapacity s := by
  have hrun : ((fsRun (fsInit zeroFiles) [.create (lit "/a"), .delete (lit "/a")]).bind fun s =>
      .ok s.fileCount) = .ok 2 := by
    decide +kernel
  obtain ⟨s, hs, h1⟩ := bind_ok_iff.mp hrun
  have hcount : s.fileCount = 2 := Except.ok.inj h1
  exact ⟨s, hs, (capacity_iff zeroFiles _ (by decide) hs).mpr (Or.inl (by rw [hcount]; decide))⟩

/-! ### A table of dead slots -/

/-- The root is the only slot in use, and no slot has a name. -/
structure Emptied (s : FS) : Prop extends RootInv s where
  names_nil : ∀ i < s.fileCount, (s.files i).nameStr = []
  dead : ∀ i, 0 < i → i < s.fileCount → (s.files i).type = .none

theorem Emptied.child_none (h : Emptied s) {n : List Byte} (hne : n ≠ []) (d : ℕ) :
    s.table.child d n = none := by
  rw [child_eq_none]
  rintro i hi ⟨-, hl⟩
  exact hne (hl.symm.trans (h.names_nil i hi))

/-- **Create and delete**: one more slot is dead. -/
theorem Emptied.cycle (h : Emptied s) (hroom : s.fileCount < maxFiles) :
    ∃ s', exec fsNext s [.create (lit "/a"), .delete (lit "/a")] = .ok s' ∧ Emptied s' ∧
      s'.fileCount = s.fileCount + 1 := by
  have hne : (lit "a").val ≠ [] := by decide
  have hsl : slash ∉ (lit "a").val := by decide
  have hlen : (lit "a").val.length < maxFilename := by decide
  have hc : CanCreate s (lit "a").val 0 := ⟨hroom, by decide, h.rootDir, h.child_none hne 0⟩
  -- the state between the two calls
  obtain ⟨s₁, hs₁⟩ : ∃ s₁, s₁ = created s (lit "a").val .file 0 hc.room := ⟨_, rfl⟩
  have hcreate : fsNext s (.create (lit "/a")) = .ok s₁ :=
    fsNext_update.mpr
      ⟨_, hs₁ ▸ (fsCreate_root_entry hne hsl hlen).trans (fsCreateFile_of_can (by decide) hc hlen)⟩
  have hroot₁ : RootInv s₁ := hs₁ ▸ h.toRootInv.created hlen
  have hcount₁ : s₁.fileCount = s.fileCount + 1 := by rw [hs₁]; rfl
  have hold : ∀ i < s.fileCount, s₁.files i = s.files i :=
    fun i hi => by rw [hs₁, created_files_of_ne (Nat.ne_of_lt hi)]
  have hnew : s₁.table.child 0 (lit "a").val = some s.fileCount := by
    cases hchild : s₁.table.child 0 (lit "a").val with
    | none =>
      refine absurd ⟨?_, ?_⟩ (child_eq_none.mp hchild s.fileCount (by rw [table_size]; omega))
      · rw [table_parent, hs₁, created_files_last]
        rfl
      · rw [table_label, hs₁, created_files_last]
        exact cstr_strcpy (by decide) hlen _
    | some j =>
      obtain ⟨hj, -, hl⟩ := child_some hchild
      rcases Nat.lt_succ_iff_lt_or_eq.mp (show j < s.fileCount + 1 from hcount₁ ▸ hj) with hj' | rfl
      · rw [table_label, hold j hj', h.names_nil j hj'] at hl
        exact absurd hl.symm hne
      · rfl
  have hdel : fsNext s₁ (.delete (lit "/a")) = .ok (buried s₁ s.fileCount) :=
    fsNext_update.mpr ⟨0, fsDelete_of_resolves h.count ((resolves_root_entry hne hsl hroot₁).mpr hnew)⟩
  refine ⟨buried s₁ s.fileCount, by rw [exec_cons_ok hcreate, exec_cons_ok hdel]; rfl,
    ⟨hroot₁.buried h.count, ?_, ?_⟩, hcount₁⟩
  · intro i hi
    rcases Nat.lt_succ_iff_lt_or_eq.mp (show i < s.fileCount + 1 from hcount₁ ▸ hi) with hi' | rfl
    · rw [buried_files_of_ne (Nat.ne_of_lt hi'), hold i hi', h.names_nil i hi']
    · rw [buried_files_self, clear_nameStr]
  · intro i hi0 hi
    rcases Nat.lt_succ_iff_lt_or_eq.mp (show i < s.fileCount + 1 from hcount₁ ▸ hi) with hi' | rfl
    · rw [buried_files_of_ne (Nat.ne_of_lt hi'), hold i hi', h.dead i hi0 hi']
    · rw [buried_files_self]
      rfl

theorem Emptied.cycles (h : Emptied s) (n : ℕ) (hroom : s.fileCount + n ≤ maxFiles) :
    ∃ s', exec fsNext s (List.replicate n [.create (lit "/a"), .delete (lit "/a")]).flatten =
      .ok s' ∧ Emptied s' ∧ s'.fileCount = s.fileCount + n := by
  induction n generalizing s with
  | zero => exact ⟨s, rfl, h, rfl⟩
  | succ n ih =>
    obtain ⟨s₁, hs₁, h₁, hcount₁⟩ := h.cycle (by omega)
    obtain ⟨s', hs', h', hcount'⟩ := ih h₁ (by omega)
    refine ⟨s', ?_, h', by omega⟩
    rw [List.replicate_succ, List.flatten_cons]
    exact exec_append_eq_ok.mpr ⟨s₁, hs₁, hs'⟩

theorem emptied_init (m : ℕ → File) : Emptied (fsInit m) := by
  refine ⟨rootInv_init m, fun i hi => ?_, fun i h0 hi => ?_⟩
  · obtain rfl : i = 0 := Nat.lt_one_iff.mp hi
    exact (fsInit_inv m).rootName
  · exact absurd (Nat.lt_one_iff.mp hi) (Nat.ne_of_gt h0)

/-- After 255 files were created and deleted again the root is the only slot in use, and no file can be
created. -/
theorem capacity_lost : ∃ s, fsRun (fsInit zeroFiles)
      (List.replicate 255 [.create (lit "/a"), .delete (lit "/a")]).flatten = .ok s ∧ usedSlots s = 1 ∧
    (¬ ∃ i, Resolves s (str "/b") i) ∧ fsCreate s (str "/b") = .ok (-1, s) := by
  obtain ⟨s, hs, h, hcount⟩ := (emptied_init zeroFiles).cycles 255 (by decide)
  have hfull : s.fileCount = maxFiles := hcount
  have hne : (lit "b").val ≠ [] := by decide
  have hsl : slash ∉ (lit "b").val := by decide
  refine ⟨s, hs, ?_, ?_, ?_⟩
  · have hone : usedSlots s = (List.range maxFiles).countP fun i => decide (i = 0) := by
      refine List.countP_congr fun i hi => ?_
      rcases Nat.eq_zero_or_pos i with rfl | h0
      · simp [h.rootDir]
      · simp [h.dead i h0 (hfull ▸ List.mem_range.mp hi), Nat.ne_of_gt h0]
    rw [hone]
    decide +kernel
  · rintro ⟨i, hi⟩
    have hchild := (resolves_root_entry (n := lit "b") hne hsl h.toRootInv).mp hi
    rw [h.child_none hne] at hchild
    cases hchild
  · exact (fsCreate_root_entry (n := lit "b") hne hsl (by decide)).trans
      (fsCreateFile_of_not (by decide) fun hc => absurd hc.room (by omega))

end FoxOS
