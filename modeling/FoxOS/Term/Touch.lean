import FoxOS.Fs.Create
import FoxOS.Term.Shell

/-!
# FoxOS.Term.Touch — `touch` and `fs_create`

The shell does not call `fs_create`: `touch` looks for the last slash and creates the file itself, without the
check for an empty name.  `touchAt` is that code on a full path (`touchCommand_at`).  On a path that ends in a
slash it asks for the empty name, and in every directory but the root that name is free.  `touch_agrees_iff`
says that this is the only difference, for this code and for the command; the entry it leaves is one that no
path leads to (`not_resolves_unnamed`).
-/

namespace FoxOS

open Segs ParentTable

variable {s : FS} {path : List Byte} {p : ℕ}

/-- The code of `touch` behind `build_path`: the result of `fs_create_file`, `-1` without a parent. -/
def touchAt (s : FS) (fullPath : List Byte) : Except Fault (Int × FS) :=
  let last := lastSlash fullPath
  (fit .parentPath (maxFilename * 2) (fullPath.take last)).bind fun parentPath =>
    (fsParsePath s (if parentPath = [] then [slash] else parentPath)).bind fun parentIndex =>
      if 0 ≤ parentIndex then fsCreateFile s (fullPath.drop (last + 1)) .file parentIndex.toNat else .ok (-1, s)

/-- The texts for a file that cannot be created. -/
def touchErrors : List (List Byte) := [str "Error: Cannot create file\n", str "Error: Invalid path\n"]

/-- The command does what the result `r` with the table `fs'` asks for: it prints a text exactly when it
failed. -/
def TouchReplies (t : Sys) (line : List Byte) (r : Int) (fs' : FS) : Prop :=
  ∃ text ∈ touchErrors, touchCommand t line = if r < 0 then (t.withFs fs').printf text []
    else .ok (t.withFs fs')

/-- **The command** runs this code on the path it builds. -/
theorem touchCommand_at {t : Sys} {line arg1 arg2 full : List Byte} {r : Int} {fs' : FS}
    (ha : parseArgs line = .ok (arg1, arg2)) (hne : arg1 ≠ [])
    (hb : buildPath t.term.currentDir arg1 = .ok full)
    (ht : touchAt t.fs full = .ok (r, fs')) : TouchReplies t line r fs' := by
  obtain ⟨d, hd, h1⟩ := bind_ok_iff.mp ht
  obtain ⟨index, hi, h2⟩ := bind_ok_iff.mp h1
  simp only [TouchReplies, touchCommand, ha, Except.bind, if_neg hne, hb, hd, hi]
  by_cases hpos : 0 ≤ index
  · rw [if_pos hpos] at h2
    simp only [if_pos hpos, h2]
    exact ⟨_, List.mem_cons_self, rfl⟩
  · rw [if_neg hpos] at h2
    cases h2
    rw [if_neg hpos]
    exact ⟨_, List.mem_cons_of_mem _ List.mem_cons_self, rfl⟩

/-! ### Trailing slashes -/

theorem namePart_eq_nil_iff (h : slash ∈ path) : namePart path = [] ↔ path.getLast? = some slash := by
  obtain ⟨hsplit, hno⟩ := split_last_slash h
  constructor
  · intro hn
    rw [hsplit, hn]
    simp
  · intro hlast
    by_contra hne
    rw [hsplit, List.getLast?_append, List.getLast?_cons, List.getLast?_eq_getLast_of_ne_nil hne] at hlast
    exact hno (by simpa using Option.some.inj hlast ▸ List.getLast_mem hne)

theorem components_trailing (h : slash ∈ path) (hn : namePart path = []) :
    components path = components (dirPart path) := by
  rw [components_parts h, hn]
  simp [components]

/-- The empty name is free in every directory but the root. -/
theorem child_nil_iff (hI : FsInv s) (hN : Named s) : s.table.child p [] = none ↔ 0 < p := by
  rw [child_eq_none]
  constructor
  · intro hfree
    rcases Nat.eq_zero_or_pos p with rfl | hp
    · exact absurd ⟨hI.tree.root, hI.rootName⟩ (hfree 0 hI.count_pos)
    · exact hp
  · rintro hp i hi ⟨hpar, hname⟩
    rcases Nat.eq_zero_or_pos i with rfl | h0
    · rw [hI.tree.root] at hpar
      omega
    · exact hN i h0 hi hname

/-! ### The two versions -/

/-- `touch` on a path that fits the buffers. -/
theorem touchAt_of_fits (h0 : (0 : Byte) ∉ path) (hp : AbsPath path) :
    touchAt s path = match s.table.walk 0 (components (dirPart path)) with
      | none => .ok (-1, s)
      | some p => fsCreateFile s (namePart path) .file p := by
  have hd : (dirPart path).length < maxFilename * 2 := Nat.lt_of_le_of_lt (dirPart_length path) hp.2.1
  have hf : PathFits (if dirPart path = [] then [slash] else dirPart path) := by
    unfold PathFits
    rw [parentPath_components]
    exact dirPart_fits hp.slash_mem hp.2.2
  show (fit .parentPath (maxFilename * 2) (dirPart path)).bind _ = _
  rw [fit_of_lt hd, Except.bind, fsParsePath_of_fits s (nul_not_mem_parentPath (nul_not_mem_dirPart h0)) hf,
    parentPath_components, Except.bind]
  cases s.table.walk 0 (components (dirPart path)) with
  | none => exact if_neg (by decide)
  | some p =>
    rw [if_pos (by rw [code_some]; omega), code_some, Int.toNat_natCast]
    rfl

/-- The path ends in a slash behind a directory other than the root, and there is room. -/
def TouchesInside (s : FS) (path : List Byte) : Prop :=
  path.getLast? = some slash ∧ s.fileCount < maxFiles ∧ ∃ p, 0 < p ∧ Resolves s path p ∧ (s.files p).type = .dir

/-- **A trailing slash**: `touch` creates an entry inside the directory, or fails. -/
theorem touchAt_trailing (hI : FsInv s) (hN : Named s) {full : CString} (hp : AbsPath full.val)
    (hne : namePart full.val = []) :
    (TouchesInside s full.val → ∃ s', touchAt s full.val = .ok (s.fileCount, s') ∧
      s'.fileCount = s.fileCount + 1) ∧
    (¬ TouchesInside s full.val → touchAt s full.val = .ok (-1, s)) := by
  have hsl := hp.slash_mem
  have hlast : full.val.getLast? = some slash := (namePart_eq_nil_iff hsl).mp hne
  have hres : ∀ p, Resolves s full.val p ↔ s.table.walk 0 (components (dirPart full.val)) = some p := by
    intro p
    rw [resolves_iff hI.names full.noNul, components_trailing hsl hne]
  rw [touchAt_of_fits full.noNul hp, hne]
  cases hw : s.table.walk 0 (components (dirPart full.val)) with
  | none =>
    refine ⟨?_, fun _ => rfl⟩
    rintro ⟨-, -, p, -, hr, -⟩
    rw [hres, hw] at hr
    cases hr
  | some p =>
    show (_ → ∃ s', fsCreateFile s [] .file p = _ ∧ _) ∧ (_ → fsCreateFile s [] .file p = _)
    have hcan : TouchesInside s full.val ↔ CanCreate s [] p := by
      constructor
      · rintro ⟨-, hroom, p', hp', hr, hdir⟩
        rw [hres, hw] at hr
        cases hr
        exact ⟨hroom, Nat.lt_of_lt_of_le (hI.walk_lt hw) s.count_le, hdir, (child_nil_iff hI hN).mpr hp'⟩
      · intro hc
        exact ⟨hlast, hc.room, p, (child_nil_iff hI hN).mp hc.fresh, (hres p).mpr hw, hc.dir⟩
    rw [hcan]
    exact ⟨fun hc => ⟨_, fsCreateFile_of_can (by simp) hc (by decide), rfl⟩, fsCreateFile_of_not (by simp)⟩

/-- The two versions agree on a path: both succeed or both fail, and they leave the same state. -/
def TouchAgrees (s : FS) (path : List Byte) : Prop := ∃ r₁ s₁ r₂ s₂,
  touchAt s path = .ok (r₁, s₁) ∧ fsCreate s path = .ok (r₂, s₂) ∧ (0 ≤ r₁ ↔ 0 ≤ r₂) ∧ s₁ = s₂

/-- So does the command: it leaves the table of `fs_create`, and prints a text exactly when `fs_create`
fails. -/
def CommandAgrees (t : Sys) (line path : List Byte) : Prop :=
  ∃ r fs', fsCreate t.fs path = .ok (r, fs') ∧ TouchReplies t line r fs'

theorem touchAt_agrees_iff (hI : FsInv s) (hN : Named s) (full : CString) (hp : AbsPath full.val) :
    TouchAgrees s full.val ↔ ¬ TouchesInside s full.val := by
  have hsl := hp.slash_mem
  have hpne : full.val ≠ [] := List.ne_nil_of_mem hsl
  have hd : (dirPart full.val).length < maxFilename * 2 := Nat.lt_of_le_of_lt (dirPart_length _) hp.2.1
  by_cases hne : namePart full.val = []
  · have hcreate : fsCreate s full.val = .ok (-1, s) := createAt_of_empty_name hpne hd hne
    obtain ⟨hin, hout⟩ := touchAt_trailing hI hN hp hne
    constructor
    · rintro ⟨r₁, s₁, r₂, s₂, h1, h2, hiff, -⟩ hinside
      obtain ⟨s', hs', -⟩ := hin hinside
      cases hs'.symm.trans h1
      cases hcreate.symm.trans h2
      exact absurd (hiff.mp (Int.natCast_nonneg _)) (by decide)
    · intro houtside
      exact ⟨_, _, _, _, hout houtside, hcreate, Iff.rfl, rfl⟩
  · -- with a name the two run the same calls
    have hcreate : fsCreate s full.val = touchAt s full.val := by
      rw [touchAt_of_fits full.noNul hp]
      exact createAt_of_fits full.noNul hpne hd (namePart_fits hsl hp.2.2) (dirPart_fits hsl hp.2.2) hne
    obtain ⟨r, s', h⟩ := createAt_total .file s full.noNul hp
    refine iff_of_true ⟨r, s', r, s', hcreate.symm.trans h, h, Iff.rfl, rfl⟩ ?_
    rintro ⟨hlast, -⟩
    exact hne ((namePart_eq_nil_iff hsl).mpr hlast)

/-- On a path inside a directory the command creates an entry, and `fs_create` would not. -/
theorem TouchesInside.not_commandAgrees {t : Sys} {line arg1 arg2 : List Byte} (hI : FsInv t.fs)
    (hN : Named t.fs)
    {full : CString} (hp : AbsPath full.val) (ha : parseArgs line = .ok (arg1, arg2)) (hne : arg1 ≠ [])
    (hb : buildPath t.term.currentDir arg1 = .ok full.val) (h : TouchesInside t.fs full.val) :
    ¬ CommandAgrees t line full.val := by
  rintro ⟨r, fs', hcreate, text, -, hreply⟩
  have hname := (namePart_eq_nil_iff hp.slash_mem).mpr h.1
  have hd : (dirPart full.val).length < maxFilename * 2 := Nat.lt_of_le_of_lt (dirPart_length _) hp.2.1
  have hfail : fsCreate t.fs full.val = .ok (-1, t.fs) :=
    createAt_of_empty_name (List.ne_nil_of_mem hp.slash_mem) hd hname
  cases hfail.symm.trans hcreate
  obtain ⟨s', hs', hcount⟩ := (touchAt_trailing hI hN hp hname).1 h
  obtain ⟨text', -, hdone⟩ := touchCommand_at ha hne hb hs'
  rw [if_neg (Int.not_lt.mpr (Int.natCast_nonneg _))] at hdone
  rw [if_pos (by decide), hdone] at hreply
  -- printing does not create an entry
  have hsame : s' = t.fs := (printf_ok hreply.symm).fs
  rw [hsame] at hcount
  omega

/-- **`touch` agrees with `fs_create`**, in every state that building calls reach and on every absolute path
that fits the buffers, except on a path that ends in a slash behind a directory other than the root: the code
behind `build_path` does, and so does the command on every line for which that path is built. -/
theorem touch_agrees_iff (hs : Built s) (full : CString) (hp : AbsPath full.val) :
    (TouchAgrees s full.val ↔ ¬ TouchesInside s full.val) ∧
    ∀ (t : Sys) (line arg1 arg2 : List Byte), t.fs = s → parseArgs line = .ok (arg1, arg2) → arg1 ≠ [] →
      buildPath t.term.currentDir arg1 = .ok full.val →
        (CommandAgrees t line full.val ↔ ¬ TouchesInside s full.val) := by
  obtain ⟨hI, hN⟩ := hs.inv
  have hiff := touchAt_agrees_iff hI hN full hp
  refine ⟨hiff, ?_⟩
  rintro t line arg1 arg2 rfl ha hne hb
  refine ⟨fun hagree hin => hin.not_commandAgrees hI hN hp ha hne hb hagree, fun hout => ?_⟩
  obtain ⟨r₁, s₁, r₂, s₂, h1, h2, hsign, rfl⟩ := hiff.mpr hout
  obtain ⟨text, htext, hreply⟩ := touchCommand_at ha hne hb h1
  exact ⟨r₂, s₁, h2, text, htext, hreply.trans (if_congr (by omega) rfl rfl)⟩

theorem touch_agrees_sample : ∃ s, fsRun (fsInit zeroFiles) [.mkdir (lit "/d")] = .ok s ∧
    TouchAgrees s (str "//d//f") ∧
    CommandAgrees ⟨⟨fun _ => 0, 0, 0, 0, 0, 0, []⟩, zeroTerm, s⟩ (str "touch //d//f") (str "//d//f") := by
  have hrun : ((fsRun (fsInit zeroFiles) [.mkdir (lit "/d")]).bind fun _ => .ok ()) =
    .ok () := by decide +kernel
  obtain ⟨s, hs, -⟩ := bind_ok_iff.mp hrun
  obtain ⟨hcode, hcommand⟩ := touch_agrees_iff ⟨zeroFiles, _, by decide, hs⟩ (lit "//d//f") (by decide +kernel)
  have hout : ¬ TouchesInside s (str "//d//f") := by
    rintro ⟨hlast, -⟩
    exact absurd hlast (by decide +kernel)
  have hbuild : buildPath zeroTerm.currentDir (str "//d//f") = .ok (str "//d//f") := by decide +kernel
  exact ⟨s, hs, hcode.mpr hout,
    (hcommand ⟨_, zeroTerm, s⟩ (str "touch //d//f") (str "//d//f") [] rfl (by decide +kernel)
    (by decide +kernel) hbuild).mpr hout⟩

/-- An entry without a name is one that no path leads to. -/
theorem not_resolves_unnamed {i : ℕ} (h0 : 0 < i) (hname : (s.files i).nameStr = []) (q : CString) :
    ¬ Resolves s q.val i := by
  intro hq
  have hw := code_eq_natCast.mp (fsParsePath_ok q.noNul hq).symm
  rcases List.eq_nil_or_concat (components q.val) with hnil | ⟨cs, c, hcs⟩
  · rw [hnil] at hw
    cases hw
    omega
  · rw [List.concat_eq_append] at hcs
    rw [hcs, walk_append] at hw
    obtain ⟨d, -, hd⟩ := Option.bind_eq_some_iff.mp hw
    rw [walk_singleton] at hd
    have hc : c ∈ components q.val := by rw [hcs]; simp
    exact (segs_spec hc).2.1 ((child_some hd).2.2.symm.trans hname)

/-- `touch /d/` creates an entry that no path leads to, where `fs_create` refuses. -/
theorem touch_inside : ∃ s s', fsRun (fsInit zeroFiles) [.mkdir (lit "/d")] = .ok s ∧
    touchAt s (str "/d/") = .ok (2, s') ∧ fsCreate s (str "/d/") = .ok (-1, s) ∧ ¬ TouchAgrees s (str "/d/") ∧
    s'.fileCount = 3 ∧ ∀ q : CString, ¬ Resolves s' q.val 2 := by
  have hrun : ((fsRun (fsInit zeroFiles) [.mkdir (lit "/d")]).bind fun s =>
      (touchAt s (str "/d/")).bind fun x => .ok (x.1, x.2.fileCount, (x.2.files 2).nameStr)) =
        .ok (2, 3, []) := by
    decide +kernel
  obtain ⟨s, hs, h1⟩ := bind_ok_iff.mp hrun
  obtain ⟨⟨r, s'⟩, ht, h2⟩ := bind_ok_iff.mp h1
  simp only [Except.ok.injEq, Prod.mk.injEq] at h2
  obtain ⟨rfl, hcount, hname⟩ := h2
  have hcreate : fsCreate s (str "/d/") = .ok (-1, s) :=
    createAt_of_empty_name (by decide) (by decide) (by decide +kernel)
  refine ⟨s, s', hs, ht, hcreate, ?_, hcount, not_resolves_unnamed (by decide) hname⟩
  rintro ⟨r₁, s₁, r₂, s₂, h1, h2, hiff, -⟩
  cases ht.symm.trans h1
  cases hcreate.symm.trans h2
  exact absurd (hiff.mp (by decide)) (by decide)

end FoxOS
