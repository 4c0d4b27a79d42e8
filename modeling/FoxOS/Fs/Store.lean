import FoxOS.Lib.Mealy
import FoxOS.Lib.PathList
import FoxOS.Fs.Create
import FoxOS.Fs.Data
import FoxOS.Fs.Delete
import FoxOS.Fs.Listing

/-!
# FoxOS.Fs.Store — the file table refines a list of paths

What the file system is for: a `Store` is the list of its entries, each with its path from the root and its
contents, in the order in which they were created.  No links, no slots, no stale bytes.  `FS.store` reads this
list off a table, and every call on the table is the call on the list (`store_step`), with the same result and
the same bytes for the caller; so are whole runs (`store_refines`).

Deletions are the exception: the table renumbers its links wrongly when a link lies far behind the deleted slot,
so the runs are those whose deletions are near (`Store.near`).
-/

namespace FoxOS

open Segs ParentTable Runs Mealy

/-! ### The store -/

inductive Node
  | dir
  | file (data : List Byte)
  deriving DecidableEq

/-- An entry: the names from the root down to it, and what it is. -/
structure Entry where
  path : List (List Byte)
  node : Node
  deriving DecidableEq

/-- The entries in the order in which they were created. -/
abbrev Store := List Entry

def Store.init : Store := [⟨[], .dir⟩]

/-- The place of the entry with this path. -/
def Store.find (σ : Store) (p : List (List Byte)) : Option ℕ := σ.findIdx? fun e => decide (e.path = p)

/-- What the path leads to. -/
def Store.nodeAt (σ : Store) (p : List (List Byte)) :
    Option Node := (σ.find p).bind fun i => σ[i]?.map Entry.node

/-- The entry lies directly in the directory `p`. -/
def Entry.In (e : Entry) (p : List (List Byte)) : Prop := e.path ≠ [] ∧ e.path.dropLast = p

instance (e : Entry) (p : List (List Byte)) : Decidable (e.In p) :=
  inferInstanceAs (Decidable (e.path ≠ [] ∧ e.path.dropLast = p))

def Store.entriesIn (σ : Store) (p : List (List Byte)) : List Entry := σ.filter fun e => decide (e.In p)

/-- The line of an entry in a listing. -/
def Entry.line (e : Entry) : List Byte :=
  e.path.getLastD [] ++ (if e.node = .dir then [slash] else []) ++ [newline]

/-- The lines of the entries as long as `MAX_FILENAME + 3` bytes are left of the `n`, behind `text` with `count`
lines. -/
def listLines (n : ℕ) : List Entry → List Byte → ℕ → List Byte × ℕ
  | [], text, count => (text, count)
  | e :: es, text, count =>
    if n < text.length + (maxFilename + 3) then (text, count) else listLines n es (text ++ e.line) (count + 1)

/-! ### Its operations -/

inductive StoreOp
  | mkdir (path : CString)
  | create (path : CString)
  | write (path : CString) (data : List Byte)
  | read (path : CString) (size : ℕ)
  | delete (path : CString)
  | list (path : CString) (bufferSize : ℕ)
  | resolve (path : CString)

/-- A new entry needs a name, room, a directory to lie in, and a path of its own. -/
def Store.add (node : Node) (σ : Store) (path : List Byte) : Store × Int :=
  if namePart path ≠ [] ∧ σ.length < maxFiles ∧ σ.nodeAt (components path).dropLast = some .dir ∧
      σ.find (components path) = none then
    (σ ++ [⟨components path, node⟩], σ.length)
  else (σ, -1)

def Store.write (σ : Store) (path data : List Byte) : Store × Int :=
  match σ.find (components path), σ.nodeAt (components path) with
  | some i, some (.file _) =>
    (σ.set i ⟨components path, .file (data.take maxFileSize)⟩, (min data.length maxFileSize : ℕ))
  | _, _ => (σ, -1)

def Store.read (σ : Store) (path : List Byte) (size : ℕ) : Int × List Byte :=
  match σ.nodeAt (components path) with
  | some (.file data) => ((min size data.length : ℕ), data.take size)
  | _ => (-1, [])

/-- Neither the root nor a directory with entries can be deleted. -/
def Store.delete (σ : Store) (path : List Byte) : Store × Int :=
  match σ.find (components path) with
  | some (k + 1) =>
    if σ.nodeAt (components path) = some .dir ∧ σ.entriesIn (components path) ≠ [] then (σ, -1)
    else (σ.eraseIdx (k + 1), 0)
  | _ => (σ, -1)

def Store.list (σ : Store) (path : List Byte) (n : ℕ) : Int × List Byte :=
  match σ.nodeAt (components path) with
  | some .dir =>
    let (text, count) := listLines n (σ.entriesIn (components path)) [] 0
    (count, text)
  | _ => (-1, [])

def Store.step (σ : Store) : StoreOp → Store × FsOut
  | .mkdir path => ((σ.add .dir path.val).1, ⟨(σ.add .dir path.val).2, []⟩)
  | .create path => ((σ.add (.file []) path.val).1, ⟨(σ.add (.file []) path.val).2, []⟩)
  | .write path data => ((σ.write path.val data).1, ⟨(σ.write path.val data).2, []⟩)
  | .read path size => (σ, ⟨(σ.read path.val size).1, (σ.read path.val size).2⟩)
  | .delete path => ((σ.delete path.val).1, ⟨(σ.delete path.val).2, []⟩)
  | .list path n => (σ, ⟨(σ.list path.val n).1, (σ.list path.val n).2⟩)
  | .resolve path => (σ, ⟨code (σ.find (components path.val)), []⟩)

/-- A deletion of the path is near: if it takes place, the directory of every entry lies at most two places
behind the deleted entry. -/
def Store.nearAt (σ : Store) (path : List Byte) : Bool :=
  decide ((σ.delete path).2 = -1) || (σ.find (components path)).all fun k =>
    σ.all fun e => (σ.find e.path.dropLast).all fun j => decide (j ≤ k + 2)

def Store.near (σ : Store) : StoreOp → Bool
  | .delete path => σ.nearAt path.val
  | _ => true

/-- Every deletion of the run is near. -/
def Store.nearRun : Store → List StoreOp → Bool
  | _, [] => true
  | σ, op :: ops => σ.near op && Store.nearRun (σ.step op).1 ops

/-- The call on the table. -/
def StoreOp.call : StoreOp → FsOp
  | .mkdir path => .mkdir path
  | .create path => .create path
  | .write path data => .write path data
  | .read path size => .read path size
  | .delete path => .deleteFile path
  | .list path n => .listDir path n
  | .resolve path => .parsePath path

/-- The path is absolute and fits; a listing buffer has at least one byte, and its size is a `uint32_t`. -/
def StoreOp.Fits : StoreOp → Prop
  | .list path n => AbsPath path.val ∧ 1 ≤ n ∧ n < 2 ^ 32
  | .mkdir path | .create path | .write path _ | .read path _ | .delete path | .resolve path => AbsPath path.val

instance : DecidablePred StoreOp.Fits
  | .list path n => inferInstanceAs (Decidable (AbsPath path.val ∧ 1 ≤ n ∧ n < 2 ^ 32))
  | .mkdir path | .create path | .write path _ | .read path _ | .delete path | .resolve path =>
    inferInstanceAs (Decidable (AbsPath path.val))

/-! ### Reading the store off the table -/

def File.node (f : File) : Node := if f.type = .dir then .dir else .file f.contents

def FS.entry (s : FS) (i : ℕ) : Entry := ⟨s.table.trail i, (s.files i).node⟩

def FS.store (s : FS) : Store := (List.range s.fileCount).map s.entry

/-- The tables that stand for a store. -/
structure StoreInv (s : FS) : Prop where
  inv : FsInv s
  named : Named s
  typed : ∀ i < s.fileCount, (s.files i).type ≠ .none

section Reading

variable {s : FS} {path : List Byte} {cs : List (List Byte)} {i d : ℕ}

@[simp] theorem length_store :
    s.store.length = s.fileCount := by rw [FS.store, List.length_map, List.length_range]

theorem getElem?_store (hi : i < s.fileCount) : s.store[i]? = some (s.entry i) := by simp [FS.store, hi]

theorem node_eq_dir {f : File} : f.node = .dir ↔ f.type = .dir := by
  unfold File.node
  by_cases h : f.type = .dir
  · rw [if_pos h]
    exact iff_of_true rfl h
  · rw [if_neg h]
    exact iff_of_false nofun h

theorem FileType.file_ne_dir : FileType.file ≠ .dir := by decide
theorem FileType.dir_ne_none : FileType.dir ≠ .none := by decide
theorem FileType.file_ne_none : FileType.file ≠ .none := by decide

theorem node_of_file {f : File} (ht : f.type = .file) : f.node = .file f.contents :=
  if_neg (ht ▸ FileType.file_ne_dir)

theorem components_ne_label (h : ∀ c ∈ cs, c ≠ []) (hI : FsInv s) : ∀ c ∈ cs, c ≠ s.table.label 0 := by
  intro c hc
  rw [table_label, hI.rootName]
  exact h c hc

/-- **Searching the store** is resolving in the table. -/
theorem find_store (hI : FsInv s) (hcs : ∀ c ∈ cs, c ≠ []) : s.store.find cs = s.table.walk 0 cs := by
  rw [hI.tree.walk_eq_find (components_ne_label hcs hI), Store.find, FS.store, paths, List.findIdx?_map,
    List.findIdx?_map]
  rfl

theorem nodeAt_store (hI : FsInv s) (hcs : ∀ c ∈ cs, c ≠ []) :
    s.store.nodeAt cs = (s.table.walk 0 cs).map fun i => (s.files i).node := by
  rw [Store.nodeAt, find_store hI hcs]
  cases hw : s.table.walk 0 cs with
  | none => rfl
  | some i =>
    rw [Option.bind_some, getElem?_store (hI.walk_lt hw)]
    rfl

theorem nonempty_components : ∀ c ∈ components path, c ≠ [] := fun _ hc => (segs_spec hc).2.1

/-- An entry lies in a directory exactly when its link says so. -/
theorem entry_in (hI : FsInv s) (hd : d < s.fileCount) (hi : i < s.fileCount) :
    (s.entry i).In (s.table.trail d) ↔ IsChild s d i := (hI.tree.child_iff_trail hd hi).symm

theorem entriesIn_store (hI : FsInv s) (hd : d < s.fileCount) :
    s.store.entriesIn (s.table.trail d) = (children s d).map s.entry := by
  rw [Store.entriesIn, FS.store, List.filter_map, children]
  congr 1
  refine List.filter_congr fun i hi => ?_
  exact decide_eq_decide.mpr (entry_in hI hd (List.mem_range.mp hi))

end Reading

/-! ### Creating -/

section Creating

variable {s : FS} {name path : List Byte} {t : FileType} {p : ℕ}

/-- What a new entry is. -/
def FileType.fresh (t : FileType) : Node := if t = .dir then .dir else .file []

theorem node_create (f : File) (name : List Byte) (t : FileType) (p : ℕ) :
    (f.create name t p).node = t.fresh := rfl

theorem created_store (h : StoreInv s) (hc : CanCreate s name p) (hp : p < s.fileCount) (h0 : (0 : Byte) ∉ name)
    (hlen : name.length < maxFilename) :
    (created s name t p hc.room).store = s.store ++ [⟨s.table.trail p ++ [name], t.fresh⟩] := by
  have htree := h.inv.tree
  have hold : ∀ i < s.fileCount, (created s name t p hc.room).entry i = s.entry i := by
    intro i hi
    rw [FS.entry, created_table h0 hlen, trail_grow htree hi, created_files_of_ne (Nat.ne_of_lt hi)]
    rfl
  have hnew : (created s name t p hc.room).entry s.fileCount = ⟨s.table.trail p ++ [name], t.fresh⟩ := by
    have hlast := htree.trail_grow_last (c := name) hp
    rw [table_size] at hlast
    rw [FS.entry, created_table h0 hlen, hlast, created_files_last, node_create]
  show (List.range (s.fileCount + 1)).map _ = _
  rw [List.range_succ, List.map_append, List.map_singleton, hnew]
  exact congrArg (· ++ _) (List.map_congr_left fun i hi => hold i (List.mem_range.mp hi))

theorem StoreInv.created (h : StoreInv s) (hc : CanCreate s name p) (hp : p < s.fileCount)
    (h0 : (0 : Byte) ∉ name)
    (hs : slash ∉ name) (hne : name ≠ []) (hlen : name.length < maxFilename) (ht : t ≠ .none) :
    StoreInv (created s name t p hc.room) := by
  refine ⟨h.inv.created hc hp h0 hs hlen, h.named.created h0 hne hlen, fun i hi => ?_⟩
  rcases Nat.lt_succ_iff_lt_or_eq.mp hi with hi | rfl
  · rw [created_files_of_ne (Nat.ne_of_lt hi)]
    exact h.typed i hi
  · rw [created_files_last]
    exact ht

/-- Slot `p` can take the name exactly when the store can take the path. -/
theorem canCreate_iff (h : StoreInv s) (hw : s.table.walk 0 (components (dirPart path)) = some p)
    (hsplit : components path = components (dirPart path) ++ [namePart path]) :
    CanCreate s (namePart path) p ↔ s.store.length < maxFiles ∧
      s.store.nodeAt (components path).dropLast = some .dir ∧ s.store.find (components path) = none := by
  have hp : p < s.fileCount := h.inv.walk_lt hw
  have hwalk : s.table.walk 0 (components path) = s.table.child p (namePart path) := by
    rw [hsplit, walk_append, hw, Option.bind_some, walk_singleton]
  rw [find_store h.inv nonempty_components, hwalk, hsplit, List.dropLast_concat,
    nodeAt_store h.inv nonempty_components, hw, Option.map_some, Option.some.injEq, node_eq_dir, length_store]
  constructor
  · rintro ⟨hroom, -, hdir, hfresh⟩
    exact ⟨hroom, hdir, hfresh⟩
  · rintro ⟨hroom, hdir, hfresh⟩
    exact ⟨hroom, lt_of_lt_of_le hp s.count_le, hdir, hfresh⟩

/-- **`fs_mkdir` and `fs_create`** add an entry to the store. -/
theorem createAt_store (h : StoreInv s) (h0 : (0 : Byte) ∉ path) (hp : AbsPath path) (ht : t ≠ .none) :
    ∃ s', createAt t s path = .ok ((s.store.add t.fresh path).2, s') ∧ s'.store = (s.store.add t.fresh path).1 ∧
      StoreInv s' := by
  have hsl := hp.slash_mem
  have hpne : path ≠ [] := List.ne_nil_of_mem hsl
  have hd : (dirPart path).length < maxFilename * 2 := lt_of_le_of_lt (dirPart_length path) hp.2.1
  have hn := namePart_fits hsl hp.2.2
  by_cases hne : namePart path = []
  · rw [Store.add, if_neg (fun hc => hc.1 hne), createAt_of_empty_name hpne hd hne]
    exact ⟨s, rfl, rfl, h⟩
  have hsplit := components_split hsl hne
  rw [createAt_of_fits h0 hpne hd hn (dirPart_fits hsl hp.2.2) hne]
  cases hw : s.table.walk 0 (components (dirPart path)) with
  | none =>
    have hno : s.store.nodeAt (components path).dropLast = none := by
      rw [hsplit, List.dropLast_concat, nodeAt_store h.inv nonempty_components, hw]
      rfl
    rw [Store.add, if_neg (fun hc => by rw [hno] at hc; exact absurd hc.2.2.1 nofun)]
    exact ⟨s, rfl, rfl, h⟩
  | some p =>
    have hn0 := nul_not_mem_namePart h0
    have hiff := canCreate_iff h hw hsplit
    show ∃ s', fsCreateFile s (namePart path) t p = _ ∧ _
    by_cases hc : CanCreate s (namePart path) p
    · have hplt := h.inv.walk_lt hw
      rw [Store.add, if_pos ⟨hne, hiff.mp hc⟩, fsCreateFile_of_can hn0 hc hn]
      refine ⟨_, by rw [length_store], ?_, h.created hc hplt hn0 (slash_not_mem_namePart path) hne hn ht⟩
      rw [created_store h hc hplt hn0 hn, hsplit,
        trail_of_walk h.inv.tree.parent_lt (components_ne_root h.inv) hw]
    · rw [Store.add, if_neg (fun hcond => hc (hiff.mpr hcond.2)), fsCreateFile_of_not hn0 hc]
      exact ⟨s, rfl, rfl, h⟩

end Creating

/-! ### Writing and reading -/

section Writing

variable {s : FS} {path data : List Byte} {i : ℕ}

theorem node_write (f : File) (data : List Byte) (ht : f.type = .file) :
    (f.write data (writeSize data)).node = .file (data.take maxFileSize) := by
  have htype : ¬ (f.write data (writeSize data)).type = .dir := by
    show ¬ f.type = .dir
    rw [ht]
    nofun
  rw [File.node, if_neg htype, contents_write]

theorem write_store (ht : (s.files i).type = .file) :
    (s.setFile i ((s.files i).write data (writeSize data))).store =
      s.store.set i ⟨s.table.trail i, .file (data.take maxFileSize)⟩ := by
  refine List.ext_getElem (by simp [FS.setFile]) fun j h1 h2 => ?_
  have hentry : ∀ j, (s.setFile i ((s.files i).write data (writeSize data))).entry j =
      if j = i then ⟨s.table.trail i, .file (data.take maxFileSize)⟩ else s.entry j := by
    intro j
    rw [FS.entry, setFile_write_table]
    by_cases hj : j = i
    · rw [if_pos hj, hj, ← node_write (s.files i) data ht]
      simp [FS.setFile]
    · rw [if_neg hj]
      simp [FS.setFile, FS.entry, Function.update_of_ne hj]
  rw [List.getElem_set]
  simp only [FS.store, List.getElem_map, List.getElem_range, hentry]
  by_cases hj : j = i
  · rw [if_pos hj, if_pos hj.symm]
  · rw [if_neg hj, if_neg (Ne.symm hj)]

/-- **`fs_write`** replaces the contents of an entry of the store. -/
theorem fsWrite_store (h : StoreInv s) (h0 : (0 : Byte) ∉ path) (hp : PathFits path) :
    ∃ s', fsWrite s path data = .ok ((s.store.write path data).2, s') ∧ s'.store = (s.store.write path data).1 ∧
      StoreInv s' := by
  rw [fsWrite, fsGetFile_of_fits s h0 hp, Except.bind, Store.write, nodeAt_store h.inv nonempty_components,
    find_store h.inv nonempty_components]
  cases hw : s.table.walk 0 (components path) with
  | none => exact ⟨s, rfl, rfl, h⟩
  | some i =>
    have hi := h.inv.walk_lt hw
    have hpath : s.table.trail i = components path :=
      (trail_of_walk h.inv.tree.parent_lt (components_ne_root h.inv) hw).symm
    simp only [Option.map_some]
    cases ht : (s.files i).type with
    | none => exact absurd ht (h.typed i hi)
    | dir =>
      rw [node_eq_dir.mpr ht]
      exact ⟨s, rfl, rfl, h⟩
    | file =>
      rw [node_of_file ht]
      refine ⟨s.setFile i ((s.files i).write data (writeSize data)), ?_, ?_, ?_⟩
      · rw [← writeSize_eq_min]
        rfl
      · rw [write_store ht, hpath]
      · refine ⟨h.inv.write (writeSize_le _), h.named.write, fun j hj => ?_⟩
        rw [(setFile_write_frame s i _ _ j).2.1]
        exact h.typed j hj

/-- **`fs_read`** reads the contents of an entry of the store. -/
theorem fsRead_store (h : StoreInv s) (h0 : (0 : Byte) ∉ path) (hp : PathFits path) (n : ℕ) :
    fsRead s path n = .ok (s.store.read path n) := by
  rw [Store.read, nodeAt_store h.inv nonempty_components]
  cases hw : s.table.walk 0 (components path) with
  | none =>
    rw [fsRead, fsGetFile_of_fits s h0 hp, hw]
    rfl
  | some i =>
    have hi := h.inv.walk_lt hw
    simp only [Option.map_some]
    cases ht : (s.files i).type with
    | none => exact absurd ht (h.typed i hi)
    | dir =>
      rw [node_eq_dir.mpr ht, fsRead, fsGetFile_of_fits s h0 hp, hw, Except.bind]
      simp only [ht]
      rfl
    | file =>
      rw [node_of_file ht, fsRead_of_file ((resolves_iff h.inv.names h0).mpr hw) ht]

end Writing

/-! ### Deleting -/

section Deleting

variable {s : FS} {path : List Byte} {k : ℕ}

theorem deleted_store (h : StoreInv s) (hk : k < s.fileCount) (h0 : 0 < k) (hleaf : Leaf s k)
    (hnear : LinksNear s k) : (deleted s k).store = s.store.eraseIdx k := by
  have htree := h.inv.tree
  have htrail : ∀ i < s.fileCount - 1, (deleted s k).table.trail i = s.table.trail (skip k i) := by
    intro i hi
    have hsame := deleted_table h.inv hk hleaf hnear
    have htree' := htree.remove hk h0 hleaf
    rw [trail_congr (fun i hi0 hi => htree'.parent_lt i hi0 hi) hsame.parent hsame.label i hi,
      trail_remove htree hk h0 hleaf i hi]
  rw [FS.store, FS.store, eraseIdx_map_range _ hk]
  refine List.map_congr_left fun i hi => ?_
  have hi := List.mem_range.mp hi
  rw [FS.entry, htrail i hi, deleted_files h.inv hk hleaf hnear hi]
  rfl

theorem StoreInv.deleted (h : StoreInv s) (hk : k < s.fileCount) (h0 : 0 < k) (hleaf : Leaf s k)
    (hnear : LinksNear s k) : StoreInv (deleted s k) := by
  refine ⟨h.inv.deleted hk h0 hleaf hnear, h.named.deleted hk, fun i hi => ?_⟩
  rw [deleted_files h.inv hk hleaf hnear hi]
  exact h.typed _ (skip_lt hi)

/-- A directory is in use exactly when the store has entries in it. -/
theorem inUse_store (h : StoreInv s) (hw : s.table.walk 0 (components path) = some k) (h0 : 0 < k) :
    InUse s k ↔ s.store.nodeAt (components path) = some .dir ∧ s.store.entriesIn (components path) ≠ [] := by
  have hk := h.inv.walk_lt hw
  have hpath := trail_of_walk h.inv.tree.parent_lt (components_ne_root h.inv) hw
  rw [inUse_iff, nodeAt_store h.inv nonempty_components, hw, Option.map_some, Option.some.injEq,
    node_eq_dir, hpath, entriesIn_store h.inv hk]
  refine and_congr_right fun _ => ?_
  rw [Ne, List.map_eq_nil_iff, children, List.filter_eq_nil_iff, not_iff_not]
  constructor
  · intro hleaf i hi hc
    exact hleaf i (List.mem_range.mp hi) (of_decide_eq_true hc).2
  · intro hno i hi hp
    refine hno i (List.mem_range.mpr hi) (decide_eq_true ⟨?_, hp⟩)
    rintro rfl
    -- the root is its own parent
    have hroot : (s.files 0).parentIndex = 0 := h.inv.tree.root
    omega

/-- The places of the directories are the links. -/
theorem linksNear_of_store (h : StoreInv s)
    (hnear : (s.store.all fun e => (s.store.find e.path.dropLast).all fun j => decide (j ≤ k + 2)) = true) :
    LinksNear s k := by
  intro i hi
  rcases Nat.eq_zero_or_pos i with rfl | h0
  · have hroot : (s.files 0).parentIndex = 0 := h.inv.tree.root
    omega
  have hmem : s.entry i ∈ s.store := List.mem_map.mpr ⟨i, List.mem_range.mpr hi, rfl⟩
  have hfind : s.store.find (s.entry i).path.dropLast = some (s.files i).parentIndex := by
    have hdrop : (s.entry i).path.dropLast = s.table.trail (s.files i).parentIndex := by
      show (s.table.trail i).dropLast = _
      rw [h.inv.tree.trail_eq h0 hi, List.dropLast_concat, table_parent]
    have hp := h.inv.parent_live hi
    rw [hdrop, find_store h.inv (fun c hc => ?_)]
    · exact h.inv.tree.walk_trail _ hp
    · obtain ⟨j, hj0, hj, rfl⟩ := h.inv.trail_name hp hc
      exact h.named j hj0 hj
  have hall := List.all_eq_true.mp hnear _ hmem
  rw [hfind, Option.all_some, decide_eq_true_eq] at hall
  exact hall

/-- **`fs_delete_file`** takes an entry out of the store, when the deletion is near. -/
theorem fsDeleteFile_store (h : StoreInv s) {path : CString} (hp : PathFits path.val)
    (hnear : s.store.near (.delete path) = true) :
    ∃ s', fsDeleteFile s path.val = .ok ((s.store.delete path.val).2, s') ∧
      s'.store = (s.store.delete path.val).1 ∧ StoreInv s' := by
  rw [Store.near, Store.nearAt, Store.delete] at hnear
  rw [Store.delete]
  rw [find_store h.inv nonempty_components] at hnear ⊢
  cases hw : s.table.walk 0 (components path.val) with
  | none =>
    rw [fsDeleteFile, fsParsePath_of_fits s path.noNul hp, hw]
    exact ⟨s, rfl, rfl, h⟩
  | some k =>
    cases k with
    | zero =>
      rw [fsDeleteFile, fsParsePath_of_fits s path.noNul hp, hw]
      exact ⟨s, rfl, rfl, h⟩
    | succ k =>
      have hk := h.inv.walk_lt hw
      have hiff := inUse_store h hw (Nat.succ_pos k)
      have hres : Resolves s path.val (k + 1) := (resolves_iff h.inv.names path.noNul).mpr hw
      simp only
      by_cases huse : InUse s (k + 1)
      · rw [if_pos (hiff.mp huse), fsDeleteFile, hres, Except.bind, if_neg (by omega),
          Int.toNat_natCast, if_pos huse]
        exact ⟨s, rfl, rfl, h⟩
      · have hleaf : Leaf s (k + 1) := h.inv.leaf (leaf_of_free huse)
        rw [hw] at hnear
        simp only [if_neg (fun hc => huse (hiff.mpr hc)), Option.all_some] at hnear
        have hlinks : LinksNear s (k + 1) := by
          refine linksNear_of_store h ?_
          simpa using hnear
        rw [if_neg (fun hc => huse (hiff.mpr hc)), fsDeleteFile_of_leaf (Nat.succ_pos k) hres fun _ => hleaf]
        exact ⟨_, rfl, deleted_store h hk (Nat.succ_pos k) hleaf hlinks,
          h.deleted hk (Nat.succ_pos k) hleaf hlinks⟩

end Deleting

/-! ### Listing -/

section Listing

variable {s : FS} {path : List Byte} {d n i : ℕ}

theorem entry_line (hI : FsInv s) (h0 : i ≠ 0) (hi : i < s.fileCount) :
    (s.entry i).line = listEntry (s.files i) := by
  have htrail := hI.tree.trail_eq (Nat.pos_of_ne_zero h0) hi
  unfold Entry.line listEntry FS.entry
  simp only [htrail, List.getLastD_concat, table_label, node_eq_dir]

/-- **The loop** prints the lines of the entries of the store that lie in the directory. -/
theorem listLoop_store (hI : FsInv s) (hn : n < 2 ^ 32) {is : List ℕ} (his : ∀ i ∈ is, i < s.fileCount)
    (text : List Byte) (count : ℕ) (ht : text.length < n) :
    listLoop s d n is text count =
        .ok (listLines n ((is.filter fun i => decide (IsChild s d i)).map s.entry) text count) ∧
      (listLines n ((is.filter fun i => decide (IsChild s d i)).map s.entry) text count).1.length < n := by
  induction is generalizing text count with
  | nil => exact ⟨rfl, ht⟩
  | cons i is ih =>
    have hi := his i List.mem_cons_self
    have his' : ∀ j ∈ is, j < s.fileCount := fun j hj => his j (List.mem_cons_of_mem i hj)
    by_cases hc : IsChild s d i
    · have hname := length_cstr_lt (hI.names i hi)
      have hlen := listEntry_length hname
      rw [List.filter_cons_of_pos (by simpa using hc), listLoop_child hc hn ht hname, List.map_cons, listLines,
        entry_line hI hc.1 hi]
      by_cases hfull : n < text.length + (maxFilename + 3)
      · rw [if_pos hfull, if_pos hfull]
        exact ⟨rfl, ht⟩
      · rw [if_neg hfull, if_neg hfull]
        exact ih his' _ _ (by rw [List.length_append]; omega)
    · rw [List.filter_cons_of_neg (by simpa using hc), listLoop_skip hc]
      exact ih his' text count ht

/-- **`fs_list_dir`** lists a directory of the store. -/
theorem fsListDir_store (h : StoreInv s) (h0 : (0 : Byte) ∉ path) (hp : PathFits path) (h1 : 1 ≤ n)
    (hn : n < 2 ^ 32) : fsListDir s path n = .ok (s.store.list path n) := by
  rw [Store.list, nodeAt_store h.inv nonempty_components]
  have hparse := fsParsePath_of_fits s h0 hp
  cases hw : s.table.walk 0 (components path) with
  | none =>
    rw [hw] at hparse
    rw [fsListDir, hparse]
    rfl
  | some d =>
    rw [hw, code_some] at hparse
    have hd := h.inv.walk_lt hw
    simp only [Option.map_some]
    cases ht : (s.files d).type with
    | none => exact absurd ht (h.typed d hd)
    | file =>
      rw [node_of_file ht, fsListDir, hparse, Except.bind, Int.toNat_natCast, ht]
      exact if_pos (Or.inr (Or.inr FileType.file_ne_dir))
    | dir =>
      have hpath := trail_of_walk h.inv.tree.parent_lt (components_ne_root h.inv) hw
      have hrange : ∀ i ∈ List.range s.fileCount, i < s.fileCount := fun _ hi => List.mem_range.mp hi
      obtain ⟨hrun, hlt⟩ := listLoop_store (d := d) h.inv hn hrange [] 0 h1
      rw [node_eq_dir.mpr ht, hpath, entriesIn_store h.inv hd]
      exact fsListDir_of_dir hparse (lt_of_lt_of_le hd s.count_le) ht hrun hlt

end Listing

/-! ### Calls and runs -/

theorem fsInit_store (m : ℕ → File) : (fsInit m).store = .init := by
  show [(fsInit m).entry 0] = _
  rw [FS.entry, trail_zero]
  rfl

theorem fsInit_storeInv (m : ℕ → File) : StoreInv (fsInit m) := by
  refine ⟨fsInit_inv m, fsInit_named m, fun i hi => ?_⟩
  obtain rfl : i = 0 := Nat.lt_one_iff.mp hi
  nofun

/-- **One call** on the table is the call on its store: the same result, the same bytes, the new store. -/
theorem store_step {s : FS} (h : StoreInv s) {op : StoreOp} (hop : op.Fits) (hnear : s.store.near op = true) :
    ∃ s', fsStep s op.call = .ok ((s.store.step op).2, s') ∧ s'.store = (s.store.step op).1 ∧ StoreInv s' := by
  have hupdate : ∀ {r : Except Fault (Int × FS)} {σ : Store} {c : Int},
      (∃ s', r = .ok (c, s') ∧ s'.store = σ ∧ StoreInv s') →
      ∃ s', ofUpdate r = .ok (⟨c, []⟩, s') ∧ s'.store = σ ∧ StoreInv s' := by
    rintro r σ c ⟨s', rfl, hσ, hs'⟩
    exact ⟨s', rfl, hσ, hs'⟩
  have hquery : ∀ {r : Except Fault (Int × List Byte)} {out : Int × List Byte}, r = .ok out →
      ∃ s', ofQuery s r = .ok (⟨out.1, out.2⟩, s') ∧ s'.store = s.store ∧ StoreInv s' := by
    rintro r out rfl
    exact ⟨s, rfl, rfl, h⟩
  cases op with
  | mkdir path => exact hupdate (createAt_store h path.noNul hop FileType.dir_ne_none)
  | create path => exact hupdate (createAt_store h path.noNul hop FileType.file_ne_none)
  | write path data => exact hupdate (fsWrite_store h path.noNul hop.2.2)
  | read path size => exact hquery (fsRead_store h path.noNul hop.2.2 size)
  | delete path => exact hupdate (fsDeleteFile_store h hop.2.2 hnear)
  | list path n => exact hquery (fsListDir_store h path.noNul hop.1.2.2 hop.2.1 hop.2.2)
  | resolve path =>
    have hparse : ((fsParsePath s path.val).bind fun r => .ok (r, ([] : List Byte))) =
        .ok (code (s.store.find (components path.val)), []) := by
      rw [fsParsePath_of_fits s path.noNul hop.2.2, find_store h.inv nonempty_components]
      rfl
    exact hquery hparse

/-- **A run** on the table is the run on its store. -/
theorem store_run {s : FS} (h : StoreInv s) {ops : List StoreOp} (hops : ∀ op ∈ ops, op.Fits)
    (hnear : s.store.nearRun ops = true) (log : List FsOut) :
    ∃ s', exec logNext (log, s) (ops.map StoreOp.call) = .ok (log ++ outputs Store.step s.store ops, s') ∧
      s'.store = after Store.step s.store ops ∧ StoreInv s' := by
  induction ops generalizing s log with
  | nil => exact ⟨s, by rw [outputs_nil, List.append_nil]; rfl, rfl, h⟩
  | cons op ops ih =>
    rw [Store.nearRun, Bool.and_eq_true] at hnear
    obtain ⟨s₁, hstep, hσ, h₁⟩ := store_step h (hops op List.mem_cons_self) hnear.1
    have hlog : logNext (log, s) op.call = .ok (log ++ [(s.store.step op).2], s₁) :=
      bind_ok_iff.mpr ⟨_, hstep, rfl⟩
    obtain ⟨s', hrun, hσ', h'⟩ := ih h₁ (fun o ho => hops o (List.mem_cons_of_mem op ho)) (hσ ▸ hnear.2)
      (log ++ [(s.store.step op).2])
    refine ⟨s', ?_, by rw [hσ', hσ, after_cons], h'⟩
    rw [List.map_cons, exec_cons_ok hlog, hrun, hσ, outputs_cons, List.append_assoc]
    rfl

/-- **The file system refines the store of paths**: for every run of `fs_mkdir`, `fs_create`, `fs_write`,
`fs_read`, `fs_delete_file`, `fs_list_dir` and `fs_parse_path` calls from `fs_init` on, over any earlier
contents of the memory, whose paths are absolute and fit the buffers, whose listing buffers have at least one
byte and whose deletions are near, no call faults, every call returns what the store returns and hands the
caller the same bytes, and the table stands for the store in the end. -/
theorem store_refines (m : ℕ → File) (ops : List StoreOp) (hops : ∀ op ∈ ops, op.Fits)
    (hnear : Store.nearRun .init ops = true) :
    ∃ s, fsLog (fsInit m) (ops.map StoreOp.call) = .ok (outputs Store.step .init ops, s) ∧
      s.store = after Store.step .init ops := by
  have hrun := store_run (fsInit_storeInv m) hops (by rwa [fsInit_store]) []
  rw [fsInit_store, List.nil_append] at hrun
  obtain ⟨s, hlog, hσ, -⟩ := hrun
  exact ⟨s, hlog, hσ⟩

/-- A file is written and moves up when the file before it goes; its directory cannot go. -/
theorem store_refines_sample : ∃ s, fsLog (fsInit zeroFiles)
    [.create (lit "/x"), .mkdir (lit "/d"), .create (lit "/d/f"), .write (lit "//d/f") [1, 2, 3],
      .deleteFile (lit "/x"),
      .deleteFile (lit "/d"), .read (lit "/d/f") 2, .listDir (lit "/") 300, .parsePath (lit "/d/f")] =
    .ok ([⟨1, []⟩, ⟨2, []⟩, ⟨3, []⟩, ⟨3, []⟩, ⟨0, []⟩, ⟨-1, []⟩, ⟨2, [1, 2]⟩,
      ⟨1, str "d/\n"⟩, ⟨2, []⟩], s) := by
  obtain ⟨s, hs, -⟩ := store_refines zeroFiles
    [.create (lit "/x"), .mkdir (lit "/d"), .create (lit "/d/f"), .write (lit "//d/f") [1, 2, 3],
      .delete (lit "/x"), .delete (lit "/d"), .read (lit "/d/f") 2, .list (lit "/") 300, .resolve (lit "/d/f")]
    (by decide +kernel) (by decide +kernel)
  have hout : outputs Store.step .init
      [.create (lit "/x"), .mkdir (lit "/d"), .create (lit "/d/f"), .write (lit "//d/f") [1, 2, 3],
        .delete (lit "/x"),
        .delete (lit "/d"), .read (lit "/d/f") 2, .list (lit "/") 300, .resolve (lit "/d/f")] =
      [⟨1, []⟩, ⟨2, []⟩, ⟨3, []⟩, ⟨3, []⟩, ⟨0, []⟩, ⟨-1, []⟩, ⟨2, [1, 2]⟩, ⟨1, str "d/\n"⟩, ⟨2, []⟩] := by
    decide +kernel
  rw [hout] at hs
  exact ⟨s, hs⟩

end FoxOS
