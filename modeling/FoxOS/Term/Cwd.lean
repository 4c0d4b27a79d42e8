import FoxOS.Fs.Delete
import FoxOS.Term.Shell

/-!
# FoxOS.Term.Cwd — the current directory of the shell

`current_dir` is a string that `cd` checks once; every later command resolves it again in a table that has
changed since.  `ShellInv` is the invariant: the table is a tree and the string leads to a directory.
Creating entries keeps it, and so does an `rm` of another entry whose links are near
(`FoxOS.Fs.Delete`); `cwd_valid` is the result for whole runs.
-/

namespace FoxOS

open Segs ParentTable Runs

variable {dir dir' line full : List Byte} {fs fs' : FS}

/-- The path leads to a directory. -/
def LeadsToDir (fs : FS) (dir : List Byte) : Prop := ∃ i, Resolves fs dir i ∧ (fs.files i).type = .dir

/-- **Invariant of the shell.** -/
structure ShellInv (fs : FS) (dir : List Byte) : Prop where
  inv : FsInv fs
  noNul : (0 : Byte) ∉ dir
  valid : LeadsToDir fs dir

/-- `fs_get_file` sees what `fs_parse_path` finds. -/
theorem fsGetFile_eq_some {path : List Byte} {i : ℕ} :
    fsGetFile fs path = .ok (some i) ↔ Resolves fs path i := by
  unfold fsGetFile Resolves
  rw [bind_ok_iff]
  constructor
  · rintro ⟨index, hi, h⟩
    by_cases hn : index < 0
    · rw [if_pos hn] at h
      cases h
    · rw [if_neg hn] at h
      have : index.toNat = i := Option.some.inj (Except.ok.inj h)
      rw [hi]
      exact congrArg Except.ok (by omega)
  · intro h
    exact ⟨i, h, by rw [if_neg (by omega), Int.toNat_natCast]⟩

theorem nul_not_mem_fullPathOf {a : List Byte} (hd : (0 : Byte) ∉ dir) (ha : (0 : Byte) ∉ a) :
    (0 : Byte) ∉ fullPathOf dir a := by
  unfold fullPathOf
  by_cases hs : a.head? = some slash
  · rwa [if_pos hs]
  · rw [if_neg hs]
    apply List.not_mem_append (List.not_mem_append hd ?_) ha
    by_cases h1 : 1 < dir.length
    · rw [if_pos h1]
      decide
    · rw [if_neg h1]
      exact List.not_mem_nil

theorem nul_not_mem_fullPath (hd : (0 : Byte) ∉ dir) (hl : (0 : Byte) ∉ line) (hb : BuildsPath dir line full) :
    (0 : Byte) ∉ full := by
  obtain ⟨arg1, arg2, ha, -, rfl, -⟩ := hb
  -- the argument is part of the line
  have harg : arg1 ⊆ line := by
    obtain ⟨a, h1, h2⟩ := bind_ok_iff.mp ha
    obtain ⟨-, rfl⟩ := fit_eq_ok.mp h1
    obtain ⟨b, -, h3⟩ := bind_ok_iff.mp h2
    cases h3
    exact fun c hc => (List.dropWhile_suffix _).subset ((List.dropWhile_suffix _).subset
      ((List.takeWhile_prefix _).subset hc))
  exact nul_not_mem_fullPathOf hd fun h => hl (harg h)

/-- An appended entry leaves every resolved path alone. -/
theorem LeadsToDir.created {n d : List Byte} {t : FileType} {p : ℕ} (h : LeadsToDir fs dir) (hI : FsInv fs)
    (h0d : (0 : Byte) ∉ dir) (hc : CanCreate fs n p) (hw : fs.table.walk 0 (components d) = some p)
    (h0 : (0 : Byte) ∉ n) (hs : slash ∉ n) (hlen : n.length < maxFilename) :
    LeadsToDir (created fs n t p hc.room) dir := by
  obtain ⟨i, hi, ht⟩ := h
  refine ⟨i, (resolves_created hI hc hw h0 hs hlen h0d).mpr (Or.inl hi), ?_⟩
  rw [created_files_of_ne (Nat.ne_of_lt (hi.lt h0d hI.count_pos))]
  exact ht

/-- An entry created in the directory that a path leads to. -/
theorem ShellInv.created {n d : List Byte} {t : FileType} {p : ℕ} (h : ShellInv fs dir) (hc : CanCreate fs n p)
    (hw : fs.table.walk 0 (components d) = some p) (h0 : (0 : Byte) ∉ n) (hs : slash ∉ n)
    (hlen : n.length < maxFilename) : ShellInv (created fs n t p hc.room) dir :=
  ⟨h.inv.created hc (h.inv.walk_lt hw) h0 hs hlen, h.noNul, h.valid.created h.inv h.noNul hc hw h0 hs hlen⟩

/-- If the line is an `rm` of a slot that is not in use, the live links are near the slot, and it is not the
current directory. -/
def RmSpares (fs : FS) (dir line : List Byte) : Prop :=
  commandOf line = .rm → ∀ full k, BuildsPath dir line full → 0 < k → Resolves fs full k → ¬ InUse fs k →
    LinksNear fs k ∧ ¬ Resolves fs dir k

/-- **One command** keeps the invariant, if an `rm` spares the current directory. -/
theorem ShellInv.change (h : ShellInv fs dir) (hl : (0 : Byte) ∉ line) (hrm : RmSpares fs dir line)
    (hc : ShellChange dir fs line dir' fs') : ShellInv fs' dir' := by
  cases hc with
  | same => exact h
  | home => exact ⟨h.inv, by decide, 0, rfl, h.inv.rootDir⟩
  | cd hb hg hd =>
    exact ⟨h.inv, nul_not_mem_fullPath h.noNul hl hb, _, fsGetFile_eq_some.mp hg, hd⟩
  | mkdir hb hm =>
    have h0 := nul_not_mem_fullPath h.noNul hl hb
    rcases createAt_ok h0 hm with ⟨-, rfl⟩ | ⟨p, hcan, hw, -, hlen, -, rfl⟩
    · exact h
    · exact h.created hcan hw (nul_not_mem_namePart h0) (slash_not_mem_namePart _) hlen
  | touch hb hp hm =>
    have h0 := nul_not_mem_fullPath h.noNul hl hb
    rcases fsCreateFile_ok (nul_not_mem_namePart h0) hm with ⟨-, rfl⟩ | ⟨hcan, hlen, -, rfl⟩
    · exact h
    · have hw := fsParsePath_ok (nul_not_mem_parentPath (nul_not_mem_dirPart h0)) hp
      rw [parentPath_components] at hw
      exact h.created hcan (code_eq_natCast.mp hw.symm) (nul_not_mem_namePart h0)
        (slash_not_mem_namePart _) hlen
  | @rm full _ _ hcmd hb hm =>
    have h0 := nul_not_mem_fullPath h.noNul hl hb
    rcases deleteFile_cases (p := ⟨full, h0⟩) h.inv hm with ⟨-, rfl⟩ | ⟨k, hk0, hk, hr, hfree, hleaf, -, rfl⟩
    · exact h
    obtain ⟨hnear, hcwd⟩ := hrm hcmd full k hb hk0 hr hfree
    have hframe := deleteFrame_of (p := ⟨full, h0⟩) h.inv hr hk0 hleaf hnear
    -- the directory is another entry, and other entries keep their paths
    obtain ⟨i, hi, ht⟩ := h.valid
    have hne : ¬ Resolves fs full i := fun hri => hcwd (hri.unique hr ▸ hi)
    obtain ⟨j, hj, hsame⟩ := hframe.kept ⟨dir, h.noNul⟩ i hi hne
    exact ⟨h.inv.deleted hk hk0 hleaf hnear, h.noNul, j, hj, hsame.type ▸ ht⟩

/-- **The working directory is valid along every run** of command lines in which every successful `rm` deletes
an entry other than the current directory, with no live link more than two slots behind it. -/
theorem cwd_valid (mem : Int → UInt16) (lines : List CString)
    (hlen : ∀ l ∈ lines, l.val.length ≤ terminalBufferSize - 1) :
    ∃ s₀, start mem = .ok s₀ ∧ ∀ s,
      AllSteps executeLine (fun s l => RmSpares s.fs s.term.currentDir l.val) s₀ lines →
      exec executeLine s₀ lines = .ok s →
      ∃ i, fsGetFile s.fs s.term.currentDir = .ok (some i) ∧ (s.fs.files i).type = .dir := by
  obtain ⟨s₀, hstart, hs₀⟩ := start_ok mem
  have hinit : ShellInv s₀.fs s₀.term.currentDir := by
    rw [hs₀.fs, hs₀.dir]
    exact ⟨fsInit_inv _, by decide, 0, rfl, rfl⟩
  refine ⟨s₀, hstart, fun s hrm hrun => ?_⟩
  have hguard := allSteps_and (G := fun _ l => l.val.length ≤ terminalBufferSize - 1)
    (allSteps_of_forall hlen) hrm
  have hinv : ShellInv s.fs s.term.currentDir := by
    refine exec_inv (I := fun s : Sys => ShellInv s.fs s.term.currentDir) ?_ hinit hguard hrun
    rintro s l s₁ hI ⟨hl, hspare⟩ hstep
    have hlt : l.val.length < terminalBufferSize := Nat.lt_of_le_sub_one (by decide) hl
    exact hI.change l.noNul hspare (executeLine_change hlt hstep)
  obtain ⟨i, hi, ht⟩ := hinv.valid
  exact ⟨i, fsGetFile_eq_some.mpr hi, ht⟩

theorem cwd_valid_sample : ∃ s₀ s, start (fun _ => 0) = .ok s₀ ∧
    exec executeLine s₀ [lit "touch x", lit "mkdir a", lit "cd a", lit "rm /x"] = .ok s ∧
    ∃ i, fsGetFile s.fs s.term.currentDir = .ok (some i) ∧ (s.fs.files i).type = .dir := by
  obtain ⟨s₀, hs₀, hvalid⟩ := cwd_valid (fun _ => 0)
    [lit "touch x", lit "mkdir a", lit "cd a", lit "rm /x"] (by decide)
  have hrun : ((start fun _ => 0).bind fun s₀ =>
      (exec executeLine s₀ [lit "touch x", lit "mkdir a", lit "cd a"]).bind
        fun s => (executeLine s (lit "rm /x")).bind fun _ =>
          .ok (fsParsePath s.fs (str "/x"), fsParsePath s.fs s.term.currentDir, decide (LinksNear s.fs 1))) =
      .ok (.ok 1, .ok 2, true) := by
    decide +kernel
  obtain ⟨s₀', hs₀', h1⟩ := bind_ok_iff.mp hrun
  cases hs₀.symm.trans hs₀'
  obtain ⟨s₁, hs₁, h2⟩ := bind_ok_iff.mp h1
  obtain ⟨s, hs, h3⟩ := bind_ok_iff.mp h2
  obtain ⟨hx, hcwd, hnear⟩ : fsParsePath s₁.fs (str "/x") = .ok 1 ∧
      fsParsePath s₁.fs s₁.term.currentDir = .ok 2 ∧ decide (LinksNear s₁.fs 1) = true := by
    simpa only [Except.ok.injEq, Prod.mk.injEq] using h3
  have hexec := exec_snoc_eq_ok.mpr ⟨s₁, hs₁, hs⟩
  have hfirst : AllSteps executeLine (fun s l => RmSpares s.fs s.term.currentDir l.val) s₀
      [lit "touch x", lit "mkdir a", lit "cd a"] :=
    ⟨fun h => absurd h (by decide +kernel), fun _ _ => ⟨fun h => absurd h (by decide +kernel), fun _ _ =>
      ⟨fun h => absurd h (by decide +kernel), fun _ _ => trivial⟩⟩⟩
  -- `rm /x` deletes slot `1`, the directory is slot `2`
  have hspares : RmSpares s₁.fs s₁.term.currentDir (str "rm /x") := by
    intro _ full k hb _ hk _
    have hfull : full = str "/x" := by
      obtain ⟨arg1, arg2, ha, -, rfl, -⟩ := hb
      have hargs : parseArgs (str "rm /x") = .ok (str "/x", []) := by decide +kernel
      cases hargs.symm.trans ha
      rfl
    rw [hfull] at hk
    obtain rfl : 1 = k := Resolves.unique hx hk
    exact ⟨of_decide_eq_true hnear, fun h => absurd (Resolves.unique hcwd h) (by decide)⟩
  have hsteps := (allSteps_snoc (i := lit "rm /x")).mpr
    ⟨hfirst, fun s' hs' => Except.ok.inj (hs₁.symm.trans hs') ▸ hspares⟩
  exact ⟨s₀, s, hs₀, hexec, hvalid s hsteps hexec⟩

/-- An `rm` elsewhere moves the link of the current directory to another parent; and an `rm` may delete the
current directory itself. -/
theorem cwd_lost : ∃ s₀ s s', start (fun _ => 0) = .ok s₀ ∧
    exec executeLine s₀ [lit "touch x", lit "mkdir b", lit "mkdir c", lit "mkdir d", lit "mkdir d/e",
      lit "cd d/e", lit "rm /x"] = .ok s ∧
    s.term.currentDir = str "/d/e" ∧ fsGetFile s.fs s.term.currentDir = .ok none ∧
    exec executeLine s₀ [lit "mkdir a", lit "cd a", lit "rm /a"] = .ok s' ∧
    s'.term.currentDir = str "/a" ∧ fsGetFile s'.fs s'.term.currentDir = .ok none := by
  have hrun : ((start fun _ => 0).bind fun s₀ =>
      (exec executeLine s₀ [lit "touch x", lit "mkdir b", lit "mkdir c", lit "mkdir d", lit "mkdir d/e",
        lit "cd d/e", lit "rm /x"]).bind fun s =>
      (exec executeLine s₀ [lit "mkdir a", lit "cd a", lit "rm /a"]).bind fun s' =>
      .ok (s.term.currentDir, fsGetFile s.fs s.term.currentDir, s'.term.currentDir,
        fsGetFile s'.fs s'.term.currentDir)) = .ok (str "/d/e", .ok none, str "/a", .ok none) := by
    decide +kernel
  obtain ⟨s₀, hs₀, h1⟩ := bind_ok_iff.mp hrun
  obtain ⟨s, hs, h2⟩ := bind_ok_iff.mp h1
  obtain ⟨s', hs', h3⟩ := bind_ok_iff.mp h2
  simp only [Except.ok.injEq, Prod.mk.injEq] at h3
  obtain ⟨hd, hg, hd', hg'⟩ := h3
  exact ⟨s₀, s, s', hs₀, hs, hd, hg, hs', hd', hg'⟩

end FoxOS
