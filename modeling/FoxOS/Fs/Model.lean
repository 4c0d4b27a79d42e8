import Mathlib.Algebra.Group.Int.Defs
import Mathlib.Algebra.Group.Nat.Defs
import FoxOS.CString

/-!
# FoxOS.Fs.Model — the in-memory file system (`src/fs.c`, `src/fs.h`)

The table is `files`, of which the slots below `fileCount` are live.  Arrays are functions; the
bytes of a name behind its terminator, the data behind `size` and the slots from `fileCount` on keep
whatever was there before, as in the code.  `fs_save` does nothing and is left out.  A path given to
an operation is the list of its bytes.
-/

namespace FoxOS

def maxFilename : ℕ := 256
def maxFileSize : ℕ := 4096
def maxFiles : ℕ := 256

inductive FileType
  | none | file | dir
  deriving DecidableEq

/-- `file_t`. -/
structure File where
  name : ℕ → Byte
  type : FileType
  size : ℕ
  parentIndex : ℕ
  data : ℕ → Byte

/-- The file table and the number of live slots; the count never leaves the table. -/
structure FS where
  files : ℕ → File
  fileCount : ℕ
  count_le : fileCount ≤ maxFiles

theorem FS.pred_count_le (s : FS) : s.fileCount - 1 ≤ maxFiles := Nat.le_trans (Nat.sub_le _ _) s.count_le

/-- The name as a string. -/
def File.nameStr (f : File) : List Byte := cstr f.name maxFilename

/-- The value `-1` of a `uint32_t` link. -/
def noParent : ℕ := 2 ^ 32 - 1

/-- Replace the contents of slot `i`. -/
def FS.setFile (s : FS) (i : ℕ) (f : File) : FS := { s with files := Function.update s.files i f }

/-- Fill the first free slot and make it live. -/
def FS.append (s : FS) (f : File) (hroom : s.fileCount < maxFiles) : FS where
  files := Function.update s.files s.fileCount f
  fileCount := s.fileCount + 1
  count_le := hroom

/-! ### `fs_init`, `fs_create_file` -/

/-- The table as the loader leaves it: static storage is zeroed. -/
def zeroFiles : ℕ → File := fun _ => ⟨fun _ => 0, .none, 0, 0, fun _ => 0⟩

/-- The loop body of `fs_init`: name, type, size and link are cleared, the data stays. -/
def File.clear (f : File) : File :=
  { f with type := .none, size := 0, name := Function.update f.name 0 0, parentIndex := noParent }

/-- `fs_init` over any earlier contents `m` of the table. -/
def fsInit (m : ℕ → File) : FS where
  files := fun i =>
    if i = 0 then { (m 0).clear with type := .dir, size := 0, parentIndex := 0 }
    else if i < maxFiles then (m i).clear else m i
  fileCount := 1
  count_le := by decide

/-- The contents of a new slot: the name is copied over the old one, the data stays. -/
def File.create (f : File) (name : List Byte) (type : FileType) (parentIndex : ℕ) : File :=
  { f with name := strcpy f.name name, type := type, size := 0, parentIndex := parentIndex }

def fsCreateFile (s : FS) (name : List Byte) (type : FileType) (parentIndex : ℕ) :
    Except Fault (Int × FS) :=
  if hfull : s.fileCount ≥ maxFiles then .ok (-1, s)
  else if parentIndex ≥ maxFiles ∨ (s.files parentIndex).type ≠ .dir then .ok (-1, s)
  else if (List.range s.fileCount).any (fun i =>
      decide ((s.files i).parentIndex = parentIndex ∧ strcmp (s.files i).nameStr name = 0)) then
    .ok (-1, s)
  else if maxFilename ≤ name.length then .error (.outOfBounds .name)
  else
    .ok (s.fileCount,
      s.append ((s.files s.fileCount).create name type parentIndex) (Nat.lt_of_not_le hfull))

/-! ### `fs_parse_path` -/

/-- `get_next_path_component`: the component and the rest of the path (`none` at its end). -/
def getNextPathComponent (path : List Byte) : Except Fault (List Byte × Option (List Byte)) :=
  let start := path.dropWhile (fun c => decide (c = slash))
  let rest := start.dropWhile (fun c => decide (c ≠ slash))
  (fit .component maxFilename (start.takeWhile (fun c => decide (c ≠ slash)))).bind fun component =>
    .ok (component, if rest = [] then none else some rest)

/-- The search loop: the first live entry of directory `dir` with this name. -/
def findEntry (s : FS) (dir : ℕ) (component : List Byte) : Option ℕ :=
  (List.range s.fileCount).find? (fun i =>
    decide ((s.files i).parentIndex = dir ∧ strcmp (s.files i).nameStr component = 0))

theorem getNextPathComponent_lt {path component p : List Byte}
    (h : getNextPathComponent path = .ok (component, some p)) : p.length < path.length := by
  unfold getNextPathComponent at h
  obtain ⟨c, -, h⟩ := bind_ok_iff.mp h
  set start := path.dropWhile (fun c => decide (c = slash)) with hstart
  have h1 : start.length ≤ path.length := (List.dropWhile_suffix _).length_le
  have hp : p = start.dropWhile (fun c => decide (c ≠ slash)) ∧ p ≠ [] := by
    simp only [Except.ok.injEq, Prod.mk.injEq] at h
    by_cases hr : start.dropWhile (fun c => decide (c ≠ slash)) = []
    · rw [if_pos hr] at h
      exact absurd h.2 (by simp)
    · rw [if_neg hr] at h
      have := (Option.some.inj h.2).symm
      exact ⟨this, by rw [this]; exact hr⟩
  obtain ⟨hp, hne⟩ := hp
  -- what is left starts with a slash, and the skipped part does not end before it
  cases hs : start with
  | nil => rw [hs] at hp; exact absurd (by simpa using hp) hne
  | cons x t =>
    have hx : x ≠ slash := by
      have := List.head?_dropWhile_not (fun c => decide (c = slash)) path
      rw [← hstart, hs] at this
      simpa using this
    rw [hs, List.dropWhile_cons_of_pos (by simpa using hx)] at hp
    have h2 : p.length ≤ t.length := by
      rw [hp]
      exact (List.dropWhile_suffix _).length_le
    rw [hs] at h1
    simp only [List.length_cons] at h1
    omega

/-- The `while (path)` loop of `fs_parse_path` from directory `cur`. -/
def fsParseLoop (s : FS) (cur : ℕ) (path : List Byte) : Except Fault Int :=
  match _h : getNextPathComponent path with
  | .error e => .error e
  | .ok (component, none) =>
    if component = [] then .ok cur
    else
      match findEntry s cur component with
      | none => .ok (-1)
      | some found => .ok found
  | .ok (component, some next) =>
    if component = [] then fsParseLoop s cur next
    else
      match findEntry s cur component with
      | none => .ok (-1)
      | some found => fsParseLoop s found next
termination_by path.length
decreasing_by all_goals exact getNextPathComponent_lt _h

def fsParsePath (s : FS) (path : List Byte) : Except Fault Int :=
  if path = [] ∨ path = [slash] then .ok 0 else fsParseLoop s 0 path

/-- The index of the file, `none` for the `NULL` result. -/
def fsGetFile (s : FS) (path : List Byte) : Except Fault (Option ℕ) :=
  (fsParsePath s path).bind fun index => .ok (if index < 0 then none else some index.toNat)

/-! ### `fs_write`, `fs_read` -/

/-- The copy loop of `fs_write` and the new size; the data behind the copied bytes stays. -/
def File.write (f : File) (data : List Byte) (size : ℕ) : File :=
  { f with data := fun j => if j < size then data.getD j 0 else f.data j, size := size }

/-- `fs_write(path, data, size)` with `size` the number of bytes of `data`. -/
def fsWrite (s : FS) (path : List Byte) (data : List Byte) : Except Fault (Int × FS) :=
  (fsGetFile s path).bind fun
    | none => .ok (-1, s)
    | some i =>
      if (s.files i).type ≠ .file then .ok (-1, s)
      else
        let size := if data.length > maxFileSize then maxFileSize else data.length
        .ok (size, s.setFile i ((s.files i).write data size))

/-- `fs_read(path, buffer, size)`: the result and the bytes stored in the buffer. -/
def fsRead (s : FS) (path : List Byte) (size : ℕ) : Except Fault (Int × List Byte) :=
  (fsGetFile s path).bind fun
    | none => .ok (-1, [])
    | some i =>
      if (s.files i).type ≠ .file then .ok (-1, [])
      else
        let size := if size > (s.files i).size then (s.files i).size else size
        .ok (size, (List.range size).map (s.files i).data)

/-! ### `fs_delete_file` -/

/-- The inner loop: every live link behind `i` goes down by one. -/
def decLinks (count i : ℕ) (files : ℕ → File) : ℕ → File := fun j =>
  if j < count ∧ i < (files j).parentIndex then
    { files j with parentIndex := (files j).parentIndex - 1 }
  else files j

/-- `n` rounds of the shifting loop, from slot `i` on. -/
def shiftLoop (count : ℕ) : ℕ → ℕ → (ℕ → File) → ℕ → File
  | 0, _, files => files
  | n + 1, i, files => shiftLoop count n (i + 1) (decLinks count i (Function.update files i (files (i + 1))))

def fsDeleteFile (s : FS) (path : List Byte) : Except Fault (Int × FS) :=
  (fsParsePath s path).bind fun index =>
    if index ≤ 0 then .ok (-1, s)
    else if (s.files index.toNat).type = .dir ∧
        (List.range s.fileCount).any (fun i => decide ((s.files i).parentIndex = index.toNat)) then
      .ok (-1, s)
    else
      .ok (0,
        { files := shiftLoop s.fileCount (s.fileCount - 1 - index.toNat) index.toNat s.files
          fileCount := s.fileCount - 1
          count_le := s.pred_count_le })

/-! ### `fs_mkdir`, `fs_create` -/

/-- The last-slash scan: position `i` in the path, `last` the last slash so far. -/
def lastSlashLoop : List Byte → ℕ → ℕ → ℕ
  | [], _, last => last
  | c :: cs, i, last => lastSlashLoop cs (i + 1) (if c = slash then i else last)

/-- The offset of the last slash, `0` when there is none. -/
def lastSlash (path : List Byte) : ℕ := lastSlashLoop path 0 0

/-- The common body of `fs_mkdir` and `fs_create`. -/
def createAt (type : FileType) (s : FS) (path : List Byte) : Except Fault (Int × FS) :=
  let last := lastSlash path
  (fit .parentPath (maxFilename * 2) (path.take last)).bind fun parentPath =>
    let parentPath := if parentPath = [] then [slash] else parentPath
    -- `last_slash + 1` lies behind the terminator of an empty path
    if path = [] then .error (.outOfBounds .path)
    else (fit .newName maxFilename (path.drop (last + 1))).bind fun newName =>
      if newName = [] then .ok (-1, s)
      else (fsParsePath s parentPath).bind fun parentIndex =>
        if parentIndex < 0 then .ok (-1, s)
        else fsCreateFile s newName type parentIndex.toNat

def fsMkdir (s : FS) (path : List Byte) : Except Fault (Int × FS) := createAt .dir s path

def fsCreate (s : FS) (path : List Byte) : Except Fault (Int × FS) := createAt .file s path

/-! ### `fs_list_dir` -/

/-- One listed entry: the name, a slash behind a directory, a newline. -/
def listEntry (f : File) : List Byte :=
  f.nameStr ++ (if f.type = .dir then [slash] else []) ++ [newline]

/-- The listing loop over the slots `is`, with the text and the number of entries so far. -/
def listLoop (s : FS) (dir : ℕ) (bufferSize : ℕ) :
    List ℕ → List Byte → ℕ → Except Fault (List Byte × ℕ)
  | [], text, count => .ok (text, count)
  | i :: is, text, count =>
    if i = 0 then listLoop s dir bufferSize is text count
    else if (s.files i).parentIndex = dir then
      let remaining : Int := ((bufferSize : Int) - text.length) % 2 ^ 32
      if remaining < (maxFilename + 3 : ℕ) then .ok (text, count)
      else if bufferSize < (text ++ listEntry (s.files i)).length then
        .error (.outOfBounds .listBuffer)
      else listLoop s dir bufferSize is (text ++ listEntry (s.files i)) (count + 1)
    else listLoop s dir bufferSize is text count

/-- `fs_list_dir(path, buffer, buffer_size)`: the result and the string left in the buffer. -/
def fsListDir (s : FS) (path : List Byte) (bufferSize : ℕ) : Except Fault (Int × List Byte) :=
  (fsParsePath s path).bind fun dirIndex =>
    if dirIndex < 0 ∨ dirIndex ≥ maxFiles ∨ (s.files dirIndex.toNat).type ≠ .dir then .ok (-1, [])
    else (listLoop s dirIndex.toNat bufferSize (List.range s.fileCount) [] 0).bind fun (text, count) =>
      (fit .listBuffer bufferSize text).bind fun text => .ok (count, text)

/-! ### `fs_delete` -/

def fsDelete (s : FS) (path : List Byte) : Except Fault (Int × FS) :=
  (fsParsePath s path).bind fun idx =>
    if idx < 0 then .ok (-1, s)
    else if idx = 0 then .ok (-1, s)
    else .ok (0, s.setFile idx.toNat (s.files idx.toNat).clear)

/-! ### Calls -/

/-- A call of one of the public operations. -/
inductive FsOp
  | createFile (name : CString) (type : FileType) (parentIndex : ℕ)
  | mkdir (path : CString)
  | create (path : CString)
  | write (path : CString) (data : List Byte)
  | read (path : CString) (size : ℕ)
  | deleteFile (path : CString)
  | delete (path : CString)
  | listDir (path : CString) (bufferSize : ℕ)
  | parsePath (path : CString)

/-- What a call hands back: its result and the bytes it stored in the caller's buffer. -/
structure FsOut where
  code : Int
  bytes : List Byte
  deriving DecidableEq

/-- A call that changes the table. -/
def ofUpdate (r : Except Fault (Int × FS)) : Except Fault (FsOut × FS) :=
  r.bind fun (code, s') => .ok (⟨code, []⟩, s')

/-- A call that only reads the table. -/
def ofQuery (s : FS) (r : Except Fault (Int × List Byte)) : Except Fault (FsOut × FS) :=
  r.bind fun (code, bytes) => .ok (⟨code, bytes⟩, s)

def fsStep (s : FS) : FsOp → Except Fault (FsOut × FS)
  | .createFile name type parentIndex => ofUpdate (fsCreateFile s name.val type parentIndex)
  | .mkdir path => ofUpdate (fsMkdir s path.val)
  | .create path => ofUpdate (fsCreate s path.val)
  | .write path data => ofUpdate (fsWrite s path.val data)
  | .read path size => ofQuery s (fsRead s path.val size)
  | .deleteFile path => ofUpdate (fsDeleteFile s path.val)
  | .delete path => ofUpdate (fsDelete s path.val)
  | .listDir path bufferSize => ofQuery s (fsListDir s path.val bufferSize)
  | .parsePath path => ofQuery s ((fsParsePath s path.val).bind fun r => .ok (r, []))

end FoxOS
