import FoxOS.Fs.Delete

/-!
# FoxOS.Fs.Leak — stale data never leaks

Slots are reused without clearing them: the slots from `fileCount` on, the data behind `size` and the bytes
behind the terminator of a name keep old contents.  `LiveEquiv` relates two states that differ only there.
Each path-based call keeps the relation and returns the same in both states (`pathOps_step`), hence so do
whole runs (`no_stale_leak`).  The root slot has to be live: `fs_parse_path("/")` returns slot `0` without
a look at `file_count`.
-/

namespace FoxOS

open Segs ParentTable Runs

/-- The same live entry: everything but the bytes behind the name and behind the data. -/
structure SameSlot (f g : File) : Prop extends SameEntry f g where
  parent : f.parentIndex = g.parentIndex
  size_le : f.size ≤ maxFileSize
  terminated : Terminated f.name maxFilename ∧ Terminated g.name maxFilename

/-- The same live slots. -/
structure LiveEquiv (s t : FS) : Prop where
  count : s.fileCount = t.fileCount
  slot : ∀ i < s.fileCount, SameSlot (s.files i) (t.files i)

/-- The same result, and states with the same live slots, the root among them. -/
def SameOut {A : Type} (x y : A × FS) : Prop := x.1 = y.1 ∧ LiveEquiv x.2 y.2 ∧ 0 < x.2.fileCount

variable {s t : FS}

/-! ### Lookups -/

theorem LiveEquiv.table (h : LiveEquiv s t) : s.table.Same t.table := by
  refine ⟨h.count, fun i hi => ?_, fun i hi => ?_⟩
  · exact (h.slot i (by rw [h.count]; exact hi)).parent
  · exact (h.slot i (by rw [h.count]; exact hi)).name

theorem walkBuf_congr (h : s.table.Same t.table) (cs : List (List Byte)) (d : ℕ) :
    walkBuf s d cs = walkBuf t d cs := by
  induction cs generalizing d with
  | nil => rfl
  | cons c cs ih =>
    simp only [walkBuf, h.child]
    congr 1
    funext c
    cases t.table.child d c with
    | none => rfl
    | some i => exact ih i

theorem LiveEquiv.parse (h : LiveEquiv s t) {path : List Byte} (h0 : (0 : Byte) ∉ path) :
    fsParsePath s path = fsParsePath t path := by
  rw [fsParsePath_eq s h0, fsParsePath_eq t h0, walkBuf_congr h.table]

/-- A path leads to no slot or to a live one. -/
theorem parse_live (hpos : 0 < s.fileCount) {path : List Byte} (h0 : (0 : Byte) ∉ path) {index : Int}
    (h : fsParsePath s path = .ok index) : index = -1 ∨ ∃ i : ℕ, index = (i : Int) ∧ i < s.fileCount := by
  have hw := fsParsePath_ok h0 h
  cases hwalk : s.table.walk 0 (components path) with
  | none => rw [hwalk] at hw; exact Or.inl hw
  | some i =>
    rw [hwalk] at hw
    exact Or.inr ⟨i, hw, walk_lt hpos hwalk⟩

theorem listLoop_eq (h : LiveEquiv s t) (dir bufferSize : ℕ) : ∀ (is : List ℕ) (text : List Byte) (count : ℕ),
    (∀ i ∈ is, i < s.fileCount) →
    listLoop s dir bufferSize is text count = listLoop t dir bufferSize is text count := by
  intro is
  induction is with
  | nil => intro text count _; rfl
  | cons i is ih =>
    intro text count hlive
    have hslot := h.slot i (hlive i (by simp))
    have hrest := fun text count => ih text count (fun j hj => hlive j (by simp [hj]))
    have hentry : listEntry (s.files i) = listEntry (t.files i) := by
      rw [listEntry, listEntry, hslot.name, hslot.type]
    simp only [listLoop, hslot.parent, hentry, hrest]

/-- The same entry is appended in both states. -/
theorem created_rel (h : LiveEquiv s t) {name : List Byte} (type : FileType) (p : ℕ)
    (h0 : (0 : Byte) ∉ name) (hlen : name.length < maxFilename) (hs : s.fileCount < maxFiles)
    (ht : t.fileCount < maxFiles) :
    SameOut ((s.fileCount : Int), created s name type p hs)
    ((t.fileCount : Int), created t name type p ht) := by
  have hcount := h.count
  refine ⟨by show (s.fileCount : Int) = t.fileCount; omega, ⟨?_, fun i hi => ?_⟩, Nat.succ_pos _⟩
  · show s.fileCount + 1 = t.fileCount + 1
    omega
  · rcases Nat.lt_succ_iff_lt_or_eq.mp hi with hlt | rfl
    · rw [created_files_of_ne (Nat.ne_of_lt hlt), created_files_of_ne (by omega)]
      exact h.slot i hlt
    · have hnew : ∀ u : FS, ∀ hu : u.fileCount < maxFiles, (created u name type p hu).files u.fileCount =
          (u.files u.fileCount).create name type p := fun u hu => created_files_last
      rw [hnew s hs]
      show SameSlot _ ((created t name type p ht).files s.fileCount)
      rw [hcount, hnew t ht]
      refine ⟨⟨?_, rfl, rfl, fun b hb => absurd hb (Nat.not_lt_zero b)⟩, rfl, Nat.zero_le _, ?_⟩
      · rw [show ((s.files t.fileCount).create name type p).nameStr = name from cstr_strcpy h0 hlen _,
          show ((t.files t.fileCount).create name type p).nameStr = name from cstr_strcpy h0 hlen _]
      · exact ⟨terminated_strcpy hlen _, terminated_strcpy hlen _⟩

/-! ### The calls that look -/

section Calls

variable (h : LiveEquiv s t) (hpos : 0 < s.fileCount)
include h hpos

theorem LiveEquiv.same {A : Type} (a : A) : SameOut (a, s) (a, t) := ⟨rfl, h, hpos⟩

/-- A call on a path: nothing found in both states, or the same live slot. -/
theorem parse_rel {path : List Byte} (h0 : (0 : Byte) ∉ path) {A B : Type} {Q : A → B → Prop}
    {f : Int → Except Fault A} {g : Int → Except Fault B} (hnone : Rel Q (f (-1)) (g (-1)))
    (hsome : ∀ i : ℕ, i < s.fileCount → SameSlot (s.files i) (t.files i) → Rel Q (f i) (g i)) :
    Rel Q ((fsParsePath s path).bind f) ((fsParsePath t path).bind g) := by
  rw [← h.parse h0]
  refine .bind_same fun index hi => ?_
  rcases parse_live hpos h0 hi with rfl | ⟨i, rfl, hlt⟩
  · exact hnone
  · exact hsome i hlt (h.slot i hlt)

theorem getFile_rel {path : List Byte} (h0 : (0 : Byte) ∉ path) {A B : Type} {Q : A → B → Prop}
    {f : Option ℕ → Except Fault A} {g : Option ℕ → Except Fault B} (hnone : Rel Q (f none) (g none))
    (hsome : ∀ i, i < s.fileCount → SameSlot (s.files i) (t.files i) → Rel Q (f (some i)) (g (some i))) :
    Rel Q ((fsGetFile s path).bind f) ((fsGetFile t path).bind g) := by
  have hassoc : ∀ (u : FS) {C : Type} (k : Option ℕ → Except Fault C), (fsGetFile u path).bind k =
      (fsParsePath u path).bind fun index => k (if index < 0 then none else some index.toNat) := by
    intro u C k
    rw [fsGetFile]
    cases fsParsePath u path <;> rfl
  rw [hassoc, hassoc]
  refine parse_rel h hpos h0 ?_ ?_
  · exact hnone
  · intro i hi hslot
    rw [if_neg (by omega), Int.toNat_natCast]
    exact hsome i hi hslot

theorem fsRead_rel {path : List Byte} (h0 : (0 : Byte) ∉ path) (size : ℕ) :
    Rel Eq (fsRead s path size) (fsRead t path size) := by
  refine getFile_rel h hpos h0 (.ok rfl) fun i hi hslot => ?_
  simp only [← hslot.type, ← hslot.size]
  by_cases ht : (s.files i).type ≠ .file
  · rw [if_pos ht, if_pos ht]
    exact .ok rfl
  · rw [if_neg ht, if_neg ht]
    refine .ok (Prod.ext rfl (List.map_congr_left fun b hb => hslot.data b ?_))
    have := List.mem_range.mp hb
    split_ifs at this <;> omega

theorem fsListDir_rel {path : List Byte} (h0 : (0 : Byte) ∉ path) (bufferSize : ℕ) :
    Rel Eq (fsListDir s path bufferSize) (fsListDir t path bufferSize) := by
  refine parse_rel h hpos h0 (.ok rfl) fun i hi hslot => ?_
  simp only [Int.toNat_natCast, ← hslot.type, ← h.count,
    listLoop_eq h i bufferSize (List.range s.fileCount) [] 0 (fun i hi => List.mem_range.mp hi)]
  split_ifs
  · exact .ok rfl
  · exact .bind_same fun a _ => .bind_same fun b _ => .ok rfl

/-! ### The calls that change the table -/

/-- New contents for the same live slot. -/
theorem setFile_rel {i : ℕ} {f g : File} (hi : i < s.fileCount) (hfg : SameSlot f g) {A : Type} (a : A) :
    SameOut (a, s.setFile i f) (a, t.setFile i g) := by
  refine ⟨rfl, ⟨h.count, fun j hj => ?_⟩, hpos⟩
  by_cases hji : j = i
  · subst hji
    simpa [FS.setFile] using hfg
  · simpa [FS.setFile, Function.update_of_ne hji] using h.slot j hj

theorem fsWrite_rel {path : List Byte} (h0 : (0 : Byte) ∉ path) (data : List Byte) :
    Rel SameOut (fsWrite s path data) (fsWrite t path data) := by
  refine getFile_rel h hpos h0 (.ok (h.same hpos _)) fun i hi hslot => ?_
  simp only [← hslot.type]
  by_cases ht : (s.files i).type ≠ .file
  · rw [if_pos ht, if_pos ht]
    exact .ok (h.same hpos _)
  · rw [if_neg ht, if_neg ht]
    refine .ok (setFile_rel h hpos hi ?_ _)
    refine ⟨⟨hslot.name, hslot.type, rfl, fun b hb => ?_⟩, hslot.parent, writeSize_le data, hslot.terminated⟩
    simp only [File.write] at hb ⊢
    rw [if_pos hb, if_pos hb]

theorem fsCreateFile_rel {name : List Byte} (type : FileType) {p : ℕ} (h0 : (0 : Byte) ∉ name)
    (hp : p < s.fileCount) : Rel SameOut (fsCreateFile s name type p) (fsCreateFile t name type p) := by
  have hcan : CanCreate s name p ↔ CanCreate t name p := by
    have htype := (h.slot p hp).type
    have hchild := h.table.child p name
    constructor
    · rintro ⟨h1, h2, h3, h4⟩
      exact ⟨h.count ▸ h1, h2, htype ▸ h3, hchild ▸ h4⟩
    · rintro ⟨h1, h2, h3, h4⟩
      exact ⟨h.count ▸ h1, h2, htype ▸ h3, hchild ▸ h4⟩
  by_cases hc : CanCreate s name p
  · by_cases hlen : name.length < maxFilename
    · rw [fsCreateFile_of_can h0 hc hlen, fsCreateFile_of_can h0 (hcan.mp hc) hlen]
      exact .ok (created_rel h type p h0 hlen _ _)
    · rw [fsCreateFile_of_long h0 hc hlen, fsCreateFile_of_long h0 (hcan.mp hc) hlen]
      exact .error _
  · rw [fsCreateFile_of_not h0 hc, fsCreateFile_of_not h0 (fun hc' => hc (hcan.mpr hc'))]
    exact .ok (h.same hpos _)

/-- `fs_mkdir` and `fs_create`. -/
theorem createAt_rel (type : FileType) {path : List Byte} (h0 : (0 : Byte) ∉ path) :
    Rel SameOut (createAt type s path) (createAt type t path) := by
  rw [createAt_def, createAt_def]
  refine .bind_same fun d hd => ?_
  obtain ⟨-, rfl⟩ := fit_eq_ok.mp hd
  by_cases hp : path = []
  · rw [if_pos hp, if_pos hp]
    exact .error _
  rw [if_neg hp, if_neg hp]
  refine .bind_same fun n hn => ?_
  obtain ⟨-, rfl⟩ := fit_eq_ok.mp hn
  by_cases hne : namePart path = []
  · rw [if_pos hne, if_pos hne]
    exact .ok (h.same hpos _)
  rw [if_neg hne, if_neg hne]
  refine parse_rel h hpos (nul_not_mem_parentPath (nul_not_mem_dirPart h0)) ?_ fun i hi _ => ?_
  · exact .ok (h.same hpos _)
  · rw [if_neg (by omega), if_neg (by omega), Int.toNat_natCast]
    exact fsCreateFile_rel h hpos type (nul_not_mem_namePart h0) hi

/-- The shifting loop reads live slots only. -/
theorem deleted_rel {k : ℕ} (hk : k < s.fileCount) (h0 : 0 < k) {A : Type} (a : A) :
    SameOut (a, deleted s k) (a, deleted t k) := by
  have hcount := h.count
  refine ⟨rfl, ⟨by show s.fileCount - 1 = t.fileCount - 1; omega, fun i hi => ?_⟩,
    by show 0 < s.fileCount - 1; omega⟩
  have hi' : i < s.fileCount - 1 := hi
  have hslot := h.slot (shiftFrom (s.fileCount - 1 - k) k i) (by unfold shiftFrom; split_ifs <;> omega)
  show SameSlot (shiftLoop s.fileCount (s.fileCount - 1 - k) k s.files i)
    (shiftLoop t.fileCount (t.fileCount - 1 - k) k t.files i)
  rw [← hcount, shiftLoop_files _ _ _ (by omega) i (by omega), shiftLoop_files _ _ _ (by omega) i (by omega)]
  refine ⟨⟨hslot.name, hslot.type, hslot.size, hslot.data⟩, ?_, hslot.size_le, hslot.terminated⟩
  simp only [hslot.parent]

theorem fsDeleteFile_rel {path : List Byte} (h0 : (0 : Byte) ∉ path) :
    Rel SameOut (fsDeleteFile s path) (fsDeleteFile t path) := by
  refine parse_rel h hpos h0 (.ok (h.same hpos _)) fun k hk hslot => ?_
  by_cases hle : (k : Int) ≤ 0
  · rw [if_pos hle, if_pos hle]
    exact .ok (h.same hpos _)
  rw [if_neg hle, if_neg hle, Int.toNat_natCast]
  have huse : InUse s k ↔ InUse t k := by
    rw [inUse_iff, inUse_iff, ← hslot.type, Leaf, Leaf, ← h.count]
    refine and_congr_right fun _ => not_congr (forall₂_congr fun i hi => ?_)
    rw [(h.slot i hi).parent]
  by_cases hb : InUse s k
  · rw [if_pos hb, if_pos (huse.mp hb)]
    exact .ok (h.same hpos _)
  · rw [if_neg hb, if_neg (fun hb' => hb (huse.mpr hb'))]
    exact .ok (deleted_rel h hpos hk (by omega) _)

theorem fsDelete_rel {path : List Byte} (h0 : (0 : Byte) ∉ path) :
    Rel SameOut (fsDelete s path) (fsDelete t path) := by
  refine parse_rel h hpos h0 (.ok (h.same hpos _)) fun k hk hslot => ?_
  have hneg : ¬ (k : Int) < 0 := by omega
  rw [if_neg hneg, if_neg hneg]
  by_cases h1 : (k : Int) = 0
  · rw [if_pos h1, if_pos h1]
    exact .ok (h.same hpos _)
  · rw [if_neg h1, if_neg h1]
    refine .ok (setFile_rel h hpos hk ?_ _)
    have hclear : ∀ f : File, Terminated f.clear.name maxFilename :=
      fun f => ⟨0, by decide, by simp [File.clear]⟩
    refine ⟨⟨?_, rfl, rfl, fun b hb => absurd hb (Nat.not_lt_zero b)⟩, rfl, Nat.zero_le _, hclear _, hclear _⟩
    rw [clear_nameStr, clear_nameStr]

/-! ### Runs -/

theorem ofQuery_rel {x y : Except Fault (Int × List Byte)} (hxy : Rel Eq x y) :
    Rel SameOut (ofQuery s x) (ofQuery t y) := by
  refine hxy.bind fun a b hab => ?_
  subst hab
  exact .ok (h.same hpos _)

end Calls

theorem ofUpdate_rel {x y : Except Fault (Int × FS)} (hxy : Rel SameOut x y) :
    Rel SameOut (ofUpdate x) (ofUpdate y) := by
  refine hxy.bind fun a b hab => .ok ⟨?_, hab.2⟩
  rw [hab.1]

/-- The path-based calls: all but `fs_create_file`, whose parent is a bare index. -/
def FsOp.ByPath : FsOp → Prop
  | .createFile _ _ _ => False
  | _ => True

/-- **One call** on states with the same live slots. -/
theorem pathOps_step (h : LiveEquiv s t) (hpos : 0 < s.fileCount) {op : FsOp} (hop : op.ByPath) :
    Rel SameOut (fsStep s op) (fsStep t op) := by
  cases op with
  | createFile _ _ _ => exact hop.elim
  | mkdir path => exact ofUpdate_rel (createAt_rel h hpos .dir path.noNul)
  | create path => exact ofUpdate_rel (createAt_rel h hpos .file path.noNul)
  | write path data => exact ofUpdate_rel (fsWrite_rel h hpos path.noNul data)
  | read path size => exact ofQuery_rel h hpos (fsRead_rel h hpos path.noNul size)
  | deleteFile path => exact ofUpdate_rel (fsDeleteFile_rel h hpos path.noNul)
  | delete path => exact ofUpdate_rel (fsDelete_rel h hpos path.noNul)
  | listDir path bufferSize => exact ofQuery_rel h hpos (fsListDir_rel h hpos path.noNul bufferSize)
  | parsePath path =>
    refine ofQuery_rel h hpos ?_
    rw [h.parse path.noNul]
    exact .bind_same fun a _ => .ok rfl

theorem logNext_rel {l m : List FsOut × FS} {op : FsOp} (hop : op.ByPath) (h : SameOut l m) :
    Rel SameOut (logNext l op) (logNext m op) := by
  obtain ⟨hout, heq, hpos⟩ := h
  refine (pathOps_step heq hpos hop).bind fun a b hab => .ok ⟨?_, hab.2⟩
  rw [hout, hab.1]

/-- **Stale data never leaks**: from states with the same live slots, the root among them, every sequence
of path-based calls gives the same codes, read bytes and listings (or the same fault), and ends in states
with the same live slots. -/
theorem no_stale_leak (h : LiveEquiv s t) (hroot : 1 ≤ s.fileCount) (ops : List FsOp)
    (hops : ∀ op ∈ ops, op.ByPath) : Rel SameOut (fsLog s ops) (fsLog t ops) := by
  have hstart : SameOut (([] : List FsOut), s) ([], t) := ⟨rfl, h, hroot⟩
  have hstep : ∀ l m op, FsOp.ByPath op → SameOut l m → Rel SameOut (logNext l op) (logNext m op) :=
    fun l m op hop hR => logNext_rel hop hR
  exact exec_rel hstep hops hstart

/-- Two tables after `fs_init` whose free slots hold different data. -/
theorem no_stale_leak_sample :
    Rel SameOut (fsLog (fsInit zeroFiles) [.create (lit "/f"), .read (lit "/f") 9])
      (fsLog (fsInit fun _ => ⟨fun _ => 65, .file, 9, 9, fun _ => 66⟩)
        [.create (lit "/f"), .read (lit "/f") 9]) := by
  have hsame : LiveEquiv (fsInit zeroFiles) (fsInit fun _ => ⟨fun _ => 65, .file, 9, 9, fun _ => 66⟩) := by
    refine ⟨rfl, fun i hi => ?_⟩
    obtain rfl : i = 0 := by
      have : i < 1 := hi
      omega
    refine ⟨⟨?_, rfl, rfl, fun b hb => absurd hb (Nat.not_lt_zero b)⟩, rfl, Nat.zero_le _,
      (fsInit_inv _).names 0 Nat.one_pos, (fsInit_inv _).names 0 Nat.one_pos⟩
    rw [(fsInit_inv _).rootName, (fsInit_inv _).rootName]
  exact no_stale_leak hsame (Nat.le_refl 1) _ (by simp [FsOp.ByPath])

/-- With no live slot at all, reading the root shows the stale slot `0`. -/
theorem stale_root : ∃ s t : FS, LiveEquiv s t ∧
    fsLog s [.read (lit "/") 1] = .ok ([⟨1, [7]⟩], s) ∧
    fsLog t [.read (lit "/") 1] = .ok ([⟨-1, []⟩], t) := by
  refine ⟨⟨fun _ => ⟨fun _ => 0, .file, 1, 0, fun _ => 7⟩, 0, Nat.zero_le _⟩, ⟨zeroFiles, 0, Nat.zero_le _⟩,
    ⟨rfl, fun i hi => absurd hi (Nat.not_lt_zero i)⟩, rfl, rfl⟩

end FoxOS
