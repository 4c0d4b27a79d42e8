import FoxOS.Lib.Runs
import FoxOS.Fs.Ops

/-!
# FoxOS.Fs.Inv — the tree invariant of the file table

`FsInv` is the invariant of the table: the live slots form a tree, every parent is a directory, live
names are slash-free strings, sizes are bounded.  It holds after `fs_init` and is kept by appending a
checked entry (`FsInv.created`) and by writing (`FsInv.write`); `builds_step` says that
`fs_mkdir`, `fs_create` and `fs_write` do nothing else.  `tree_invariant` is the invariant of whole runs,
with every live slot reached by its canonical path.
-/

namespace FoxOS

open Segs ParentTable Runs

/-! ### Runs -/

/-- One call, without its outputs. -/
def fsNext (s : FS) (op : FsOp) : Except Fault FS := (fsStep s op).bind fun (_, s') => .ok s'

/-- A sequence of calls. -/
def fsRun (s : FS) (ops : List FsOp) : Except Fault FS := exec fsNext s ops

/-- One call, with its output appended to the log of the run. -/
def logNext (l : List FsOut × FS) (op : FsOp) : Except Fault (List FsOut × FS) :=
  (fsStep l.2 op).bind fun (out, s') => .ok (l.1 ++ [out], s')

/-- A sequence of calls, with all their outputs. -/
def fsLog (s : FS) (ops : List FsOp) : Except Fault (List FsOut × FS) := exec logNext ([], s) ops

/-- The calls that build: `fs_mkdir`, `fs_create`, `fs_write`. -/
def FsOp.Builds : FsOp → Prop
  | .mkdir _ | .create _ | .write _ _ => True
  | _ => False

instance : DecidablePred FsOp.Builds
  | .mkdir _ | .create _ | .write _ _ => isTrue trivial
  | .createFile _ _ _ | .read _ _ | .deleteFile _ | .delete _ | .listDir _ _ | .parsePath _ => isFalse id

/-- An absolute path shorter than the path buffers, with components that fit theirs. -/
def AbsPath (path : List Byte) : Prop :=
  path.head? = some slash ∧ path.length < maxFilename * 2 ∧ PathFits path

instance (path : List Byte) : Decidable (AbsPath path) :=
  inferInstanceAs (Decidable (path.head? = some slash ∧ path.length < maxFilename * 2 ∧ PathFits path))

/-- The path of the call is absolute and fits the buffers: only `fs_mkdir` and `fs_create` copy more than
components. -/
def FsOp.PathOk : FsOp → Prop
  | .mkdir path | .create path => AbsPath path.val
  | .write path _ | .read path _ | .deleteFile path | .delete path | .listDir path _ | .parsePath path =>
    path.val.head? = some slash ∧ PathFits path.val
  | .createFile _ _ _ => True

instance : DecidablePred FsOp.PathOk
  | .mkdir path | .create path => inferInstanceAs (Decidable (AbsPath path.val))
  | .write path _ | .read path _ | .deleteFile path | .delete path | .listDir path _ | .parsePath path =>
    inferInstanceAs (Decidable (path.val.head? = some slash ∧ PathFits path.val))
  | .createFile _ _ _ => isTrue trivial

/-! ### The invariant -/

/-- **Invariant of the file table.** -/
structure FsInv (s : FS) : Prop where
  tree : s.table.Tree
  rootDir : (s.files 0).type = .dir
  rootName : (s.files 0).nameStr = []
  dir : ∀ i < s.fileCount, (s.files (s.files i).parentIndex).type = .dir
  names : NamesOk s
  noSlash : ∀ i < s.fileCount, slash ∉ (s.files i).nameStr
  size_le : ∀ i < s.fileCount, (s.files i).size ≤ maxFileSize

/-- Every live slot but the root has a name. -/
def Named (s : FS) : Prop := ∀ i, 0 < i → i < s.fileCount → (s.files i).nameStr ≠ []

theorem clear_nameStr (f : File) : f.clear.nameStr = [] := cstr_update_zero _ _

theorem fsInit_files_zero (m : ℕ → File) :
    (fsInit m).files 0 = { (m 0).clear with type := .dir, size := 0, parentIndex := 0 } := rfl

theorem fsInit_inv (m : ℕ → File) : FsInv (fsInit m) := by
  have hlive : ∀ i, i < (fsInit m).fileCount → i = 0 := by
    intro i hi
    have : i < 1 := hi
    omega
  have hname : ((fsInit m).files 0).nameStr = [] := clear_nameStr (m 0)
  refine ⟨⟨Nat.one_pos, rfl, ?_, ?_⟩, rfl, hname, ?_, ?_, ?_, ?_⟩
  · intro i h0 hi
    have := hlive i hi
    omega
  · intro i j hi hj _ _
    rw [hlive i hi, hlive j hj]
  · intro i hi
    rw [hlive i hi]
    rfl
  · intro i hi
    rw [hlive i hi]
    exact ⟨0, by decide, by simp [fsInit_files_zero, File.clear]⟩
  · intro i hi
    rw [hlive i hi, hname]
    simp
  · intro i hi
    rw [hlive i hi]
    exact Nat.zero_le _

theorem fsInit_named (m : ℕ → File) : Named (fsInit m) := by
  intro i h0 hi
  have : i < 1 := hi
  omega

variable {s s' : FS} {name path : List Byte} {type : FileType} {p i : ℕ}

theorem FsInv.count_pos (hI : FsInv s) : 0 < s.fileCount := hI.tree.size_pos

theorem FsInv.parent_live (hI : FsInv s) (hi : i < s.fileCount) : (s.files i).parentIndex < s.fileCount :=
  hI.tree.parent_size hi

/-- The slot a path leads to is live. -/
theorem FsInv.walk_lt (hI : FsInv s) {cs : List (List Byte)} (h : s.table.walk 0 cs = some i) :
    i < s.fileCount := ParentTable.walk_lt hI.tree.size_pos h

/-- **Appending** a checked entry keeps the invariant. -/
theorem FsInv.created (hI : FsInv s) (hc : CanCreate s name p) (hp : p < s.fileCount)
    (h0 : (0 : Byte) ∉ name) (hs : slash ∉ name) (hlen : name.length < maxFilename) :
    FsInv (created s name type p hc.room) := by
  have hroot := hI.count_pos
  have hname : ((FoxOS.created s name type p hc.room).files s.fileCount).nameStr = name := by
    rw [created_files_last]
    exact cstr_strcpy h0 hlen _
  have hold : ∀ i < s.fileCount, (FoxOS.created s name type p hc.room).files i = s.files i :=
    fun i hi => created_files_of_ne (Nat.ne_of_lt hi)
  refine ⟨?_, ?_, ?_, ?_, ?_, ?_, ?_⟩
  · rw [created_table h0 hlen]
    exact hI.tree.grow hp hc.fresh
  · rw [hold 0 hroot]; exact hI.rootDir
  · rw [hold 0 hroot]; exact hI.rootName
  · intro i hi
    rcases Nat.lt_succ_iff_lt_or_eq.mp hi with hi | rfl
    · rw [hold i hi, hold _ (hI.parent_live hi)]
      exact hI.dir i hi
    · rw [created_files_last]
      simp only [File.create]
      rw [hold p hp]
      exact hc.dir
  · intro i hi
    rcases Nat.lt_succ_iff_lt_or_eq.mp hi with hi | rfl
    · rw [hold i hi]; exact hI.names i hi
    · rw [created_files_last]; exact terminated_strcpy hlen _
  · intro i hi
    rcases Nat.lt_succ_iff_lt_or_eq.mp hi with hi | rfl
    · rw [hold i hi]; exact hI.noSlash i hi
    · rw [hname]; exact hs
  · intro i hi
    rcases Nat.lt_succ_iff_lt_or_eq.mp hi with hi | rfl
    · rw [hold i hi]; exact hI.size_le i hi
    · rw [created_files_last]; exact Nat.zero_le _

theorem Named.created (hN : Named s) {hroom : s.fileCount < maxFiles} (h0 : (0 : Byte) ∉ name)
    (hne : name ≠ []) (hlen : name.length < maxFilename) : Named (created s name type p hroom) := by
  intro i hi0 hi
  rcases Nat.lt_succ_iff_lt_or_eq.mp hi with hi | rfl
  · rw [created_files_of_ne (Nat.ne_of_lt hi)]; exact hN i hi0 hi
  · rw [created_files_last, show ((s.files s.fileCount).create name type p).nameStr = name from
      cstr_strcpy h0 hlen _]
    exact hne

/-- What a write leaves alone in every slot. -/
theorem setFile_write_frame (s : FS) (i : ℕ) (data : List Byte) (n j : ℕ) :
    ((s.setFile i ((s.files i).write data n)).files j).name = (s.files j).name ∧
    ((s.setFile i ((s.files i).write data n)).files j).type = (s.files j).type ∧
    ((s.setFile i ((s.files i).write data n)).files j).parentIndex = (s.files j).parentIndex := by
  by_cases hj : j = i
  · subst hj; simp [FS.setFile, File.write]
  · simp [FS.setFile, Function.update_of_ne hj]

/-- **Writing** keeps the invariant. -/
theorem FsInv.write (hI : FsInv s) {data : List Byte} {n : ℕ} (hn : n ≤ maxFileSize) :
    FsInv (s.setFile i ((s.files i).write data n)) := by
  have hfr := setFile_write_frame s i data n
  refine ⟨by rw [setFile_write_table]; exact hI.tree, ?_, ?_, ?_, ?_, ?_, ?_⟩
  · rw [(hfr 0).2.1]; exact hI.rootDir
  · rw [File.nameStr, (hfr 0).1]; exact hI.rootName
  · intro j hj
    rw [(hfr j).2.2, (hfr _).2.1]
    exact hI.dir j hj
  · intro j hj
    rw [(hfr j).1]
    exact hI.names j hj
  · intro j hj
    rw [File.nameStr, (hfr j).1]
    exact hI.noSlash j hj
  · intro j hj
    by_cases hji : j = i
    · subst hji; simpa [FS.setFile, File.write] using hn
    · simp only [FS.setFile, Function.update_of_ne hji]
      exact hI.size_le j hj

theorem Named.write (hN : Named s) {data : List Byte} {n : ℕ} :
    Named (s.setFile i ((s.files i).write data n)) := by
  intro j h0 hj
  rw [File.nameStr, (setFile_write_frame s i _ _ j).1]
  exact hN j h0 hj

/-! ### What a building call can do -/

/-- The changes `fs_mkdir`, `fs_create` and `fs_write` can make. -/
inductive Change (s : FS) : FS → Prop
  | same : Change s s
  | added {name : List Byte} {type : FileType} {p : ℕ} (hc : CanCreate s name p) (hp : p < s.fileCount)
      (h0 : (0 : Byte) ∉ name) (hs : slash ∉ name) (hne : name ≠ []) (hlen : name.length < maxFilename) :
      Change s (created s name type p hc.room)
  | written {i : ℕ} {data : List Byte} (hi : i < s.fileCount) (ht : (s.files i).type = .file) :
      Change s (s.setFile i ((s.files i).write data (writeSize data)))

theorem Change.inv (h : Change s s') (hI : FsInv s) : FsInv s' := by
  cases h with
  | same => exact hI
  | added hc hp h0 hs hne hlen => exact hI.created hc hp h0 hs hlen
  | written hi ht => exact hI.write (writeSize_le _)

theorem Change.named (h : Change s s') (hN : Named s) : Named s' := by
  cases h with
  | same => exact hN
  | added hc hp h0 hs hne hlen => exact hN.created h0 hne hlen
  | written hi ht => exact hN.write

theorem fsNext_update {r : Except Fault (Int × FS)} :
    ((ofUpdate r).bind fun (_, s') => .ok s') = .ok s' ↔ ∃ c, r = .ok (c, s') := by
  rcases r with e | ⟨c, t⟩
  · exact ⟨fun h => (nomatch h), fun ⟨_, h⟩ => (nomatch h)⟩
  · exact ⟨fun h => by cases h; exact ⟨c, rfl⟩, fun ⟨_, h⟩ => by cases h; rfl⟩

theorem createAt_change (hI : FsInv s) (h0 : (0 : Byte) ∉ path) {r : Int}
    (h : createAt type s path = .ok (r, s')) : Change s s' := by
  rcases createAt_ok h0 h with ⟨-, rfl⟩ | ⟨p, hc, hw, hne, hlen, -, rfl⟩
  · exact .same
  · exact .added hc (hI.walk_lt hw) (nul_not_mem_namePart h0) (slash_not_mem_namePart path) hne hlen

/-- **One building call** makes one of these changes. -/
theorem builds_step (hI : FsInv s) {op : FsOp} (hop : op.Builds) (h : fsNext s op = .ok s') :
    Change s s' := by
  cases op with
  | mkdir path =>
    obtain ⟨r, hr⟩ := fsNext_update.mp h
    exact createAt_change hI path.noNul hr
  | create path =>
    obtain ⟨r, hr⟩ := fsNext_update.mp h
    exact createAt_change hI path.noNul hr
  | write path data =>
    obtain ⟨r, hr⟩ := fsNext_update.mp h
    rcases fsWrite_ok path.noNul hr with ⟨-, rfl⟩ | ⟨i, hw, ht, -, rfl⟩
    · exact .same
    · exact .written (hI.walk_lt hw) ht
  | createFile _ _ _ => exact hop.elim
  | read _ _ => exact hop.elim
  | deleteFile _ => exact hop.elim
  | delete _ => exact hop.elim
  | listDir _ _ => exact hop.elim
  | parsePath _ => exact hop.elim

/-- The states that `fs_mkdir`, `fs_create` and `fs_write` build from `fs_init`. -/
def Built (s : FS) : Prop :=
  ∃ m ops, (∀ op ∈ ops, FsOp.Builds op) ∧ fsRun (fsInit m) ops = .ok s

theorem Built.inv (h : Built s) : FsInv s ∧ Named s := by
  obtain ⟨m, ops, hops, hrun⟩ := h
  refine exec_inv (I := fun s => FsInv s ∧ Named s) ?_ ⟨fsInit_inv m, fsInit_named m⟩
    (allSteps_of_forall hops) hrun
  rintro s op s' ⟨hI, hN⟩ hop hstep
  have hch := builds_step hI hop hstep
  exact ⟨hch.inv hI, hch.named hN⟩

/-! ### Calls that fit the buffers do not fault -/

theorem AbsPath.slash_mem (h : AbsPath path) : slash ∈ path := List.mem_of_mem_head? h.1

/-- The directory part has the components of the path but the last. -/
theorem dirPart_fits (hsl : slash ∈ path) (hp : PathFits path) : PathFits (dirPart path) := by
  intro c hc
  apply hp c
  rw [components_parts hsl]
  exact List.mem_append_left _ hc

/-- The name part fits the name buffer. -/
theorem namePart_fits (hsl : slash ∈ path) (hp : PathFits path) :
    (namePart path).length < maxFilename := by
  by_cases hne : namePart path = []
  · rw [hne]; decide
  · refine hp _ ?_
    rw [components_split hsl hne]
    simp

theorem dirPart_length (path : List Byte) : (dirPart path).length ≤ path.length := by
  unfold dirPart
  rw [List.length_take]
  omega

theorem createAt_total_of_slash (t : FileType) (s : FS) (h0 : (0 : Byte) ∉ path) (hsl : slash ∈ path)
    (hlen : path.length < maxFilename * 2) (hfit : PathFits path) :
    ∃ r s', createAt t s path = .ok (r, s') := by
  have hpne : path ≠ [] := by rintro rfl; simp at hsl
  have hd : (dirPart path).length < maxFilename * 2 := lt_of_le_of_lt (dirPart_length path) hlen
  have hn := namePart_fits hsl hfit
  by_cases hne : namePart path = []
  · exact ⟨_, _, createAt_of_empty_name hpne hd hne⟩
  rw [createAt_of_fits h0 hpne hd hn (dirPart_fits hsl hfit) hne]
  cases s.table.walk 0 (components (dirPart path)) with
  | none => exact ⟨_, _, rfl⟩
  | some p =>
    by_cases hc : CanCreate s (namePart path) p
    · exact ⟨_, _, fsCreateFile_of_can (nul_not_mem_namePart h0) hc hn⟩
    · exact ⟨_, _, fsCreateFile_of_not (nul_not_mem_namePart h0) hc⟩

theorem createAt_total (t : FileType) (s : FS) (h0 : (0 : Byte) ∉ path) (hp : AbsPath path) :
    ∃ r s', createAt t s path = .ok (r, s') :=
  createAt_total_of_slash t s h0 hp.slash_mem hp.2.1 hp.2.2

theorem fsWrite_total (s : FS) (data : List Byte) (h0 : (0 : Byte) ∉ path) (hp : PathFits path) :
    ∃ r s', fsWrite s path data = .ok (r, s') := by
  rw [fsWrite, fsGetFile_of_fits s h0 hp, Except.bind]
  cases s.table.walk 0 (components path) with
  | none => exact ⟨_, _, rfl⟩
  | some i =>
    by_cases ht : (s.files i).type ≠ .file
    · exact ⟨_, _, if_pos ht⟩
    · exact ⟨_, _, if_neg ht⟩

theorem builds_total {op : FsOp} (hop : op.Builds) (hp : op.PathOk) : ∃ s', fsNext s op = .ok s' := by
  cases op with
  | mkdir path =>
    obtain ⟨r, s', h⟩ := createAt_total .dir s path.noNul hp
    exact ⟨s', fsNext_update.mpr ⟨r, h⟩⟩
  | create path =>
    obtain ⟨r, s', h⟩ := createAt_total .file s path.noNul hp
    exact ⟨s', fsNext_update.mpr ⟨r, h⟩⟩
  | write path data =>
    obtain ⟨r, s', h⟩ := fsWrite_total s data path.noNul hp.2
    exact ⟨s', fsNext_update.mpr ⟨r, h⟩⟩
  | createFile _ _ _ => exact hop.elim
  | read _ _ => exact hop.elim
  | deleteFile _ => exact hop.elim
  | delete _ => exact hop.elim
  | listDir _ _ => exact hop.elim
  | parsePath _ => exact hop.elim

/-! ### Canonical paths -/

/-- The names from the root down to slot `i`, each behind a slash (the root has the empty name). -/
def canonPath (s : FS) (i : ℕ) : List Byte := (s.table.trail i).flatMap (slash :: ·)

theorem FsInv.trail_name (hI : FsInv s) (hi : i < s.fileCount) {c : List Byte}
    (hc : c ∈ s.table.trail i) : ∃ j, 0 < j ∧ j < s.fileCount ∧ (s.files j).nameStr = c :=
  hI.tree.label_of_trail i hi c hc

theorem components_canonPath (hI : FsInv s) (hN : Named s) (hi : i < s.fileCount) :
    components (canonPath s i) = s.table.trail i := by
  refine segs_join ?_
  intro c hc
  obtain ⟨j, hj0, hj, rfl⟩ := hI.trail_name hi hc
  exact ⟨hI.noSlash j hj, hN j hj0 hj⟩

theorem nul_not_mem_canonPath (hI : FsInv s) (hi : i < s.fileCount) : (0 : Byte) ∉ canonPath s i := by
  unfold canonPath
  simp only [List.mem_flatMap, List.mem_cons, not_exists, not_and, not_or]
  intro c hc
  obtain ⟨j, -, -, rfl⟩ := hI.trail_name hi hc
  exact ⟨by decide, nul_not_mem_nameStr _⟩

/-- **No live slot is lost**: the canonical path of a slot resolves to it. -/
theorem resolves_canonPath (hI : FsInv s) (hN : Named s) (hi : i < s.fileCount) :
    Resolves s (canonPath s i) i := by
  rw [resolves_iff hI.names (nul_not_mem_canonPath hI hi), components_canonPath hI hN hi]
  exact hI.tree.walk_trail i hi

/-- **Tree invariant of the file table**, as a reader of the table sees it. -/
structure TreeInv (s : FS) : Prop where
  count : 1 ≤ s.fileCount ∧ s.fileCount ≤ maxFiles
  root : (s.files 0).type = .dir ∧ (s.files 0).parentIndex = 0
  entry : ∀ i, 1 ≤ i → i < s.fileCount →
    (s.files i).parentIndex < i ∧ (s.files (s.files i).parentIndex).type = .dir ∧
    (s.files i).nameStr ≠ [] ∧ slash ∉ (s.files i).nameStr
  unique : ∀ i j, i < s.fileCount → j < s.fileCount → (s.files i).parentIndex = (s.files j).parentIndex →
    (s.files i).nameStr = (s.files j).nameStr → i = j
  size_le : ∀ i < s.fileCount, (s.files i).size ≤ maxFileSize
  canon : ∀ i < s.fileCount, Resolves s (canonPath s i) i
  distinct : ∀ i j, i < s.fileCount → j < s.fileCount → canonPath s i = canonPath s j → i = j

theorem treeInv_of (hI : FsInv s) (hN : Named s) : TreeInv s := by
  have hcanon : ∀ i < s.fileCount, Resolves s (canonPath s i) i :=
    fun i hi => resolves_canonPath hI hN hi
  refine ⟨⟨hI.count_pos, s.count_le⟩, ⟨hI.rootDir, hI.tree.root⟩, ?_, hI.tree.sib, hI.size_le, hcanon, ?_⟩
  · intro i h1 hi
    exact ⟨hI.tree.parent_lt i h1 hi, hI.dir i hi, hN i h1 hi, hI.noSlash i hi⟩
  · intro i j hi hj hij
    have h1 := hcanon i hi
    have h2 := hcanon j hj
    unfold Resolves at h1 h2
    rw [hij, h2] at h1
    have := Except.ok.inj h1
    omega

/-- **The tree invariant holds along every run** of `fs_mkdir`, `fs_create` and `fs_write` calls whose
paths are absolute and fit the buffers, and no such call accesses memory outside a buffer. -/
theorem tree_invariant (m : ℕ → File) (ops : List FsOp) (hops : ∀ op ∈ ops, op.Builds ∧ op.PathOk) :
    ∃ s, fsRun (fsInit m) ops = .ok s ∧ TreeInv s := by
  have hstep : ∀ s op, FsInv s ∧ Named s → op.Builds ∧ op.PathOk →
      ∃ s', fsNext s op = .ok s' ∧ FsInv s' ∧ Named s' := by
    rintro s op ⟨hI, hN⟩ ⟨hb, hp⟩
    obtain ⟨s', hs'⟩ := builds_total (s := s) hb hp
    have hch := builds_step hI hb hs'
    exact ⟨s', hs', hch.inv hI, hch.named hN⟩
  obtain ⟨s, hrun, hI, hN⟩ := exec_total hstep ⟨fsInit_inv m, fsInit_named m⟩ hops
  exact ⟨s, hrun, treeInv_of hI hN⟩

theorem tree_invariant_sample : ∃ s, fsRun (fsInit zeroFiles)
    [.mkdir (lit "/a"), .create (lit "//a/b"), .write (lit "/a/b/") [7]] =
      .ok s ∧ TreeInv s :=
  tree_invariant zeroFiles _ (by decide +kernel)

end FoxOS
