import FoxOS.Fs.Path

/-!
# FoxOS.Fs.Ops — what each operation can do

One lemma per operation, in terms of the walk in the parent table: `fsCreateFile_ok`,
`createAt_ok` (for `fs_mkdir` and `fs_create`), `fsWrite_ok`.  A call either changes nothing and returns
`-1`, or meets all its checks and makes one change.
-/

namespace FoxOS

open Segs ParentTable

variable {s s' : FS} {name path : List Byte} {type : FileType} {p i : ℕ} {r : Int}

/-! ### `fs_create_file` -/

/-- The checks of `fs_create_file`. -/
structure CanCreate (s : FS) (name : List Byte) (p : ℕ) : Prop where
  room : s.fileCount < maxFiles
  slot : p < maxFiles
  dir : (s.files p).type = .dir
  fresh : s.table.child p name = none

/-- The state after a successful `fs_create_file`. -/
def created (s : FS) (name : List Byte) (type : FileType) (p : ℕ) (hroom : s.fileCount < maxFiles) : FS :=
  s.append ((s.files s.fileCount).create name type p) hroom

theorem dup_iff_child (h0 : (0 : Byte) ∉ name) (s : FS) (p : ℕ) :
    (List.range s.fileCount).any (fun i =>
      decide ((s.files i).parentIndex = p ∧ strcmp (s.files i).nameStr name = 0)) = true ↔
    s.table.child p name ≠ none := by
  rw [Ne, child_eq_none, List.any_eq_true]
  simp only [List.mem_range, decide_eq_true_eq, strcmp_eq_zero (nul_not_mem_nameStr _) h0,
    table_size, table_parent, table_label, not_forall, not_not, exists_prop]

theorem fsCreateFile_of_can (h0 : (0 : Byte) ∉ name) (hc : CanCreate s name p)
    (hlen : name.length < maxFilename) :
    fsCreateFile s name type p = .ok (s.fileCount, created s name type p hc.room) := by
  obtain ⟨h1, h2, h3, h4⟩ := hc
  unfold fsCreateFile
  rw [dif_neg (by omega), if_neg (by rw [h3]; simp only [ne_eq, not_true, or_false]; omega),
    if_neg (by rw [dup_iff_child h0]; exact fun h => h h4), if_neg (by omega)]
  rfl

theorem fsCreateFile_of_not (h0 : (0 : Byte) ∉ name) (hc : ¬ CanCreate s name p) :
    fsCreateFile s name type p = .ok (-1, s) := by
  unfold fsCreateFile
  by_cases h1 : s.fileCount ≥ maxFiles
  · rw [dif_pos h1]
  by_cases h2 : p ≥ maxFiles ∨ (s.files p).type ≠ .dir
  · rw [dif_neg h1, if_pos h2]
  rw [dif_neg h1, if_neg h2, if_pos]
  rw [dup_iff_child h0]
  intro h3
  push Not at h2
  exact hc ⟨by omega, by omega, h2.2, h3⟩

theorem fsCreateFile_of_long (h0 : (0 : Byte) ∉ name) (hc : CanCreate s name p)
    (hlen : ¬ name.length < maxFilename) : fsCreateFile s name type p = .error (.outOfBounds .name) := by
  obtain ⟨h1, h2, h3, h4⟩ := hc
  unfold fsCreateFile
  rw [dif_neg (by omega), if_neg (by rw [h3]; simp only [ne_eq, not_true, or_false]; omega),
    if_neg (by rw [dup_iff_child h0]; exact fun h => h h4), if_pos (by omega)]

/-- **`fs_create_file`**: nothing happens, or the checks hold and one slot is appended. -/
theorem fsCreateFile_ok (h0 : (0 : Byte) ∉ name) (h : fsCreateFile s name type p = .ok (r, s')) :
    (r = -1 ∧ s' = s) ∨ ∃ hc : CanCreate s name p, name.length < maxFilename ∧ r = s.fileCount ∧
      s' = created s name type p hc.room := by
  by_cases hc : CanCreate s name p
  · by_cases hlen : name.length < maxFilename
    · rw [fsCreateFile_of_can h0 hc hlen] at h
      cases h
      exact Or.inr ⟨hc, hlen, rfl, rfl⟩
    · rw [fsCreateFile_of_long h0 hc hlen] at h
      cases h
  · rw [fsCreateFile_of_not h0 hc] at h
    cases h
    exact Or.inl ⟨rfl, rfl⟩

/-- The `j`-th of enough names of two letters. -/
def spareName (j : ℕ) : List Byte := [UInt8.ofNat (65 + j / 26), UInt8.ofNat (65 + j % 26)]

theorem spareName_clean : ∀ j ≤ maxFiles, (0 : Byte) ∉ spareName j ∧ slash ∉ spareName j := by
  decide +kernel

theorem spareName_inj {i j : ℕ} (hi : i ≤ maxFiles) (hj : j ≤ maxFiles)
    (h : spareName i = spareName j) : i = j := by
  simp only [spareName, List.cons.injEq, and_true, ← UInt8.toNat_inj, UInt8.toNat_ofNat'] at h
  simp only [maxFiles] at hi hj
  omega

/-- A directory never has an entry under every name. -/
theorem exists_fresh_name (s : FS) (d : ℕ) :
    ∃ n : CString, n.val ≠ [] ∧ slash ∉ n.val ∧ n.val.length < maxFilename ∧ s.table.child d n.val = none := by
  have hle : ∀ j : Fin (s.table.size + 1), j.val ≤ maxFiles :=
    fun j => Nat.le_trans (Nat.le_of_lt_succ j.isLt) s.count_le
  obtain ⟨j, hj⟩ := exists_child_none (T := s.table) (f := fun j => spareName j)
    (fun i j hij => Fin.ext (spareName_inj (hle i) (hle j) hij)) d
  obtain ⟨h0, hs⟩ := spareName_clean j (hle j)
  exact ⟨⟨spareName j, h0⟩, List.cons_ne_nil _ _, hs, show 2 < maxFilename by decide, hj⟩

/-! ### The appended slot -/

section Created

variable {hroom : s.fileCount < maxFiles}

theorem created_files_of_ne (h : i ≠ s.fileCount) :
    (created s name type p hroom).files i = s.files i := by
  simp [created, FS.append, Function.update_of_ne h]

theorem created_files_last :
    (created s name type p hroom).files s.fileCount = (s.files s.fileCount).create name type p := by
  simp [created, FS.append]

/-- The table grows by the new entry. -/
theorem created_table (h0 : (0 : Byte) ∉ name) (hlen : name.length < maxFilename) :
    (created s name type p hroom).table = s.table.grow p name := by
  have hname : ((s.files s.fileCount).create name type p).nameStr = name := cstr_strcpy h0 hlen _
  unfold FS.table grow
  congr 1
  · funext i
    by_cases hi : i = s.fileCount
    · subst hi
      simp only [created_files_last, Function.update_self]
      rfl
    · simp only [created_files_of_ne hi, Function.update_of_ne hi]
  · funext i
    by_cases hi : i = s.fileCount
    · subst hi
      simp only [created_files_last, Function.update_self]
      exact hname
    · simp only [created_files_of_ne hi, Function.update_of_ne hi]

end Created

/-! ### The last slash -/

/-- The text before the last slash (empty when there is none). -/
def dirPart (path : List Byte) : List Byte := path.take (lastSlash path)

/-- The text behind the last slash (behind the first byte when there is none). -/
def namePart (path : List Byte) : List Byte := path.drop (lastSlash path + 1)

theorem lastSlashLoop_of_not_mem {cs : List Byte} (h : slash ∉ cs) (i last : ℕ) :
    lastSlashLoop cs i last = last := by
  induction cs generalizing i with
  | nil => rfl
  | cons c cs ih =>
    simp only [List.mem_cons, not_or] at h
    rw [lastSlashLoop, if_neg (fun h' => h.1 h'.symm), ih h.2]

theorem lastSlashLoop_append {b : List Byte} (hb : slash ∉ b) (a : List Byte) (i last : ℕ) :
    lastSlashLoop (a ++ slash :: b) i last = i + a.length := by
  induction a generalizing i last with
  | nil => rw [List.nil_append, lastSlashLoop, if_pos rfl, lastSlashLoop_of_not_mem hb]; rfl
  | cons c a ih => rw [List.cons_append, lastSlashLoop, ih, List.length_cons]; omega

theorem exists_last_slash (h : slash ∈ path) : ∃ a b, path = a ++ slash :: b ∧ slash ∉ b := by
  obtain ⟨a, b, hab, ha⟩ := List.eq_append_cons_of_mem (List.mem_reverse.mpr h)
  refine ⟨b.reverse, a.reverse, ?_, by simpa using ha⟩
  rw [← List.reverse_reverse path, hab]
  simp

/-- The scan finds the last slash. -/
theorem parts_of_split {a b : List Byte} (hb : slash ∉ b) :
    dirPart (a ++ slash :: b) = a ∧ namePart (a ++ slash :: b) = b := by
  have hl : lastSlash (a ++ slash :: b) = a.length := by
    rw [lastSlash, lastSlashLoop_append hb, Nat.zero_add]
  refine ⟨by rw [dirPart, hl]; exact List.take_left, ?_⟩
  rw [namePart, hl, ← List.drop_drop, List.drop_left]
  rfl

/-- A path with a slash is its directory part, the last slash and its name part. -/
theorem split_last_slash (h : slash ∈ path) :
    path = dirPart path ++ slash :: namePart path ∧ slash ∉ namePart path := by
  obtain ⟨a, b, rfl, hb⟩ := exists_last_slash h
  obtain ⟨hd, hn⟩ := parts_of_split (a := a) hb
  rw [hd, hn]
  exact ⟨rfl, hb⟩

theorem slash_not_mem_namePart (path : List Byte) : slash ∉ namePart path := by
  by_cases h : slash ∈ path
  · exact (split_last_slash h).2
  · exact fun hm => h (List.mem_of_mem_drop hm)

theorem nul_not_mem_namePart (h0 : (0 : Byte) ∉ path) : (0 : Byte) ∉ namePart path :=
  fun hm => h0 (List.mem_of_mem_drop hm)

theorem nul_not_mem_dirPart (h0 : (0 : Byte) ∉ path) : (0 : Byte) ∉ dirPart path :=
  fun hm => h0 (List.mem_of_mem_take hm)

theorem components_parts (h : slash ∈ path) :
    components path = components (dirPart path) ++ components (namePart path) := by
  rw [← components_join, ← (split_last_slash h).1]

/-- The components of a path with a slash: those of the directory part, then the name. -/
theorem components_split (h : slash ∈ path) (hn : namePart path ≠ []) :
    components path = components (dirPart path) ++ [namePart path] := by
  rw [components_parts h, components_word (slash_not_mem_namePart path) hn]

/-! ### `fs_mkdir` and `fs_create` -/

theorem parentPath_components (d : List Byte) :
    components (if d = [] then [slash] else d) = components d := by
  by_cases h : d = []
  · rw [if_pos h, h]; simp [components]
  · rw [if_neg h]

theorem nul_not_mem_parentPath {d : List Byte} (h0 : (0 : Byte) ∉ d) :
    (0 : Byte) ∉ (if d = [] then [slash] else d) := by
  by_cases h : d = []
  · rw [if_pos h]; decide
  · rwa [if_neg h]

theorem createAt_def (type : FileType) (s : FS) (path : List Byte) :
    createAt type s path = (fit .parentPath (maxFilename * 2) (dirPart path)).bind fun d =>
      if path = [] then .error (.outOfBounds .path)
      else (fit .newName maxFilename (namePart path)).bind fun n =>
        if n = [] then .ok (-1, s)
        else (fsParsePath s (if d = [] then [slash] else d)).bind fun index =>
          if index < 0 then .ok (-1, s) else fsCreateFile s n type index.toNat := rfl

/-- **`fs_mkdir`, `fs_create`**: nothing happens, or the directory part leads to a slot that passes
the checks for the name part, and the new slot is appended. -/
theorem createAt_ok (h0 : (0 : Byte) ∉ path) (h : createAt type s path = .ok (r, s')) :
    (r = -1 ∧ s' = s) ∨ ∃ p, ∃ hc : CanCreate s (namePart path) p,
      s.table.walk 0 (components (dirPart path)) = some p ∧ namePart path ≠ [] ∧
      (namePart path).length < maxFilename ∧ r = s.fileCount ∧
      s' = created s (namePart path) type p hc.room := by
  rw [createAt_def] at h
  obtain ⟨d, hd, h1⟩ := bind_ok_iff.mp h
  obtain ⟨-, rfl⟩ := fit_eq_ok.mp hd
  by_cases hp : path = []
  · rw [if_pos hp] at h1
    cases h1
  rw [if_neg hp] at h1
  obtain ⟨n, hn, h2⟩ := bind_ok_iff.mp h1
  obtain ⟨-, rfl⟩ := fit_eq_ok.mp hn
  by_cases hne : namePart path = []
  · rw [if_pos hne] at h2
    cases h2
    exact Or.inl ⟨rfl, rfl⟩
  rw [if_neg hne] at h2
  obtain ⟨index, hi, h3⟩ := bind_ok_iff.mp h2
  have hw := fsParsePath_ok (nul_not_mem_parentPath (nul_not_mem_dirPart h0)) hi
  rw [parentPath_components] at hw
  cases hwalk : s.table.walk 0 (components (dirPart path)) with
  | none =>
    rw [hwalk] at hw
    rw [if_pos (by rw [hw]; decide)] at h3
    cases h3
    exact Or.inl ⟨rfl, rfl⟩
  | some p =>
    rw [hwalk] at hw
    obtain rfl : index = (p : Int) := hw
    rw [if_neg (by omega), Int.toNat_natCast] at h3
    rcases fsCreateFile_ok (nul_not_mem_namePart h0) h3 with h4 | ⟨hc, hlen, hr, hs⟩
    · exact Or.inl h4
    · exact Or.inr ⟨p, hc, rfl, hne, hlen, hr, hs⟩

/-- The call on a path whose parts fit their buffers. -/
theorem createAt_of_fits (h0 : (0 : Byte) ∉ path) (hp : path ≠ [])
    (hd : (dirPart path).length < maxFilename * 2) (hn : (namePart path).length < maxFilename)
    (hf : PathFits (dirPart path)) (hne : namePart path ≠ []) :
    createAt type s path = match s.table.walk 0 (components (dirPart path)) with
      | none => .ok (-1, s)
      | some p => fsCreateFile s (namePart path) type p := by
  have hf' : PathFits (if dirPart path = [] then [slash] else dirPart path) := by
    unfold PathFits
    rwa [parentPath_components]
  rw [createAt_def, fit_of_lt hd, Except.bind, if_neg hp, fit_of_lt hn, Except.bind, if_neg hne,
    fsParsePath_of_fits s (nul_not_mem_parentPath (nul_not_mem_dirPart h0)) hf', parentPath_components,
    Except.bind]
  cases s.table.walk 0 (components (dirPart path)) with
  | none => exact if_pos (by decide)
  | some p => rw [if_neg (by rw [code_some]; omega), code_some, Int.toNat_natCast]

theorem createAt_of_empty_name (hp : path ≠ []) (hd : (dirPart path).length < maxFilename * 2)
    (hne : namePart path = []) : createAt type s path = .ok (-1, s) := by
  rw [createAt_def, fit_of_lt hd, Except.bind, if_neg hp, hne, fit_of_lt (by decide), Except.bind,
    if_pos rfl]

/-! ### `fs_write` -/

/-- The number of bytes `fs_write` keeps. -/
def writeSize (data : List Byte) : ℕ := if data.length > maxFileSize then maxFileSize else data.length

theorem writeSize_le (data : List Byte) : writeSize data ≤ maxFileSize := by
  unfold writeSize
  split_ifs <;> omega

/-- The slot a path leads to, for `fs_get_file`. -/
theorem fsGetFile_ok {o : Option ℕ} (h0 : (0 : Byte) ∉ path) (h : fsGetFile s path = .ok o) :
    o = s.table.walk 0 (components path) := by
  obtain ⟨index, hi, h1⟩ := bind_ok_iff.mp h
  have hw := fsParsePath_ok h0 hi
  cases h1
  cases hwalk : s.table.walk 0 (components path) with
  | none => rw [hwalk] at hw; rw [hw]; rfl
  | some p =>
    rw [hwalk] at hw
    obtain rfl : index = (p : Int) := hw
    rw [if_neg (by omega), Int.toNat_natCast]

theorem fsGetFile_of_fits (s : FS) (h0 : (0 : Byte) ∉ path) (hp : PathFits path) :
    fsGetFile s path = .ok (s.table.walk 0 (components path)) := by
  rw [fsGetFile, fsParsePath_of_fits s h0 hp, Except.bind]
  cases s.table.walk 0 (components path) with
  | none => rfl
  | some p => rw [if_neg (by rw [code_some]; omega), code_some, Int.toNat_natCast]

/-- **`fs_write`**: nothing happens, or the path leads to a file and its contents are replaced. -/
theorem fsWrite_ok {data : List Byte} (h0 : (0 : Byte) ∉ path) (h : fsWrite s path data = .ok (r, s')) :
    (r = -1 ∧ s' = s) ∨ ∃ i, s.table.walk 0 (components path) = some i ∧ (s.files i).type = .file ∧
      r = writeSize data ∧ s' = s.setFile i ((s.files i).write data (writeSize data)) := by
  obtain ⟨o, ho, h1⟩ := bind_ok_iff.mp h
  have hw := fsGetFile_ok h0 ho
  cases o with
  | none => cases h1; exact Or.inl ⟨rfl, rfl⟩
  | some i =>
    by_cases ht : (s.files i).type = .file
    · simp only [ht, ne_eq, not_true, if_false] at h1
      cases h1
      exact Or.inr ⟨i, hw.symm, ht, rfl, rfl⟩
    · simp only [ne_eq, ht, not_false_eq_true, if_true] at h1
      cases h1
      exact Or.inl ⟨rfl, rfl⟩

/-- Writing leaves names, types and links alone. -/
theorem setFile_write_table {data : List Byte} {n : ℕ} :
    (s.setFile i ((s.files i).write data n)).table = s.table := by
  unfold FS.table FS.setFile
  congr 1
  · funext j
    by_cases hj : j = i
    · subst hj; simp [File.write]
    · simp [Function.update_of_ne hj]
  · funext j
    by_cases hj : j = i
    · subst hj; simp [File.write, File.nameStr]
    · simp [Function.update_of_ne hj]

end FoxOS
