import FoxOS.Fs.Delete

/-!
# FoxOS.Fs.Stale — slots behind the count

`fs_create_file` accepts any slot of the table whose type is that of a directory, also one behind `file_count`,
and `fs_delete_file` leaves the last slot as it is.  So a directory in the last slot stays a possible parent
after a deletion, and the next entry created under it is its own parent.  `NoStaleDir` is what a state needs
(`createsLive_iff`); `create_live` is the exact condition for whole runs.
-/

namespace FoxOS

open ParentTable Runs

variable {s s' : FS} {op : FsOp} {r : Int}

/-- The calls `fs_create_file`, `fs_mkdir`, `fs_create`, `fs_write` and `fs_delete_file`. -/
def FsOp.Changes : FsOp → Prop
  | .createFile _ _ _ => True
  | op => op.Edits

instance : DecidablePred FsOp.Changes
  | .createFile _ _ _ => isTrue trivial
  | .deleteFile _ => isTrue trivial
  | .mkdir _ | .create _ | .write _ _ => isTrue trivial
  | .read _ _ | .delete _ | .listDir _ _ | .parsePath _ => isFalse id

/-- A new entry has a live directory as its parent, and not itself. -/
def CreatesLive (s : FS) : Prop := ∀ (name : CString) (type : FileType) (p : ℕ) (r : Int) (s' : FS),
  fsCreateFile s name.val type p = .ok (r, s') → 0 ≤ r →
    p < s.fileCount ∧ (s.files p).type = .dir ∧ (s'.files r.toNat).parentIndex ≠ r.toNat

/-- No slot behind the live ones has the type of a directory. -/
def NoStaleDir (s : FS) : Prop := ∀ k, s.fileCount ≤ k → k < maxFiles → (s.files k).type ≠ .dir

/-- **The condition on a state** is exact: under a stale directory any fresh name can be created. -/
theorem createsLive_iff : CreatesLive s ↔ NoStaleDir s := by
  constructor
  · intro hlive k hk hlt hdir
    obtain ⟨n, -, -, hlen, hfresh⟩ := exists_fresh_name s k
    have hc : CanCreate s n.val k := ⟨Nat.lt_of_le_of_lt hk hlt, hlt, hdir, hfresh⟩
    obtain ⟨hp, -⟩ := hlive n .file k _ _ (fsCreateFile_of_can n.noNul hc hlen) (Int.natCast_nonneg _)
    omega
  · intro hstale name type p r s' h hr
    rcases fsCreateFile_ok name.noNul h with ⟨rfl, -⟩ | ⟨hc, -, rfl, rfl⟩
    · exact absurd hr (by decide)
    · have hp : p < s.fileCount := Nat.lt_of_not_le fun hle => hstale p hle hc.slot hc.dir
      refine ⟨hp, hc.dir, ?_⟩
      rw [Int.toNat_natCast, created_files_last]
      exact Nat.ne_of_lt hp

/-! ### What a call leaves behind the count -/

theorem shiftLoop_behind {count j : ℕ} (hj : count ≤ j) : ∀ (n i : ℕ) (files : ℕ → File), i + n < count →
    shiftLoop count n i files j = files j
  | 0, _, _, _ => rfl
  | n + 1, i, files, h => by
    rw [shiftLoop, shiftLoop_behind hj n (i + 1) _ (by omega), decLinks,
      if_neg (fun h' => absurd h'.1 (by omega)), Function.update_of_ne (by omega)]

/-- A deletion leaves the types of the last slot and of the slots behind it. -/
theorem deleted_behind {k j : ℕ} (hk : k < s.fileCount) (hj : s.fileCount - 1 ≤ j) :
    ((deleted s k).files j).type = (s.files j).type := by
  show (shiftLoop s.fileCount (s.fileCount - 1 - k) k s.files j).type = _
  by_cases hlast : j < s.fileCount
  · rw [shiftLoop_files _ _ _ (by omega) j hlast, shiftFrom, if_neg (by omega)]
  · rw [shiftLoop_behind (by omega) _ _ _ (by omega)]

/-- **A deletion** leaves no stale directory exactly when the last slot is none. -/
theorem noStaleDir_deleted {k : ℕ} (h : NoStaleDir s) (hk : k < s.fileCount) :
    NoStaleDir (deleted s k) ↔ (s.files (s.fileCount - 1)).type ≠ .dir := by
  have hcount := s.count_le
  constructor
  · intro hstale hdir
    refine hstale (s.fileCount - 1) (Nat.le_refl _) (by omega) ?_
    rw [deleted_behind hk (Nat.le_refl _), hdir]
  · intro hlast j hj hlt
    have hj' : s.fileCount - 1 ≤ j := hj
    rw [deleted_behind hk hj']
    by_cases hjl : j = s.fileCount - 1
    · rw [hjl]
      exact hlast
    · exact h j (by omega) hlt

theorem noStaleDir_created {name : List Byte} {type : FileType} {p : ℕ} {hroom : s.fileCount < maxFiles}
    (h : NoStaleDir s) : NoStaleDir (created s name type p hroom) := by
  intro k hk hlt
  have hk' : s.fileCount + 1 ≤ k := hk
  rw [created_files_of_ne (by omega)]
  exact h k (by omega) hlt

theorem noStaleDir_write {i : ℕ} {data : List Byte} {n : ℕ} (h : NoStaleDir s) :
    NoStaleDir (s.setFile i ((s.files i).write data n)) := by
  intro k hk hlt
  rw [(setFile_write_frame s i data n k).2.1]
  exact h k hk hlt

/-! ### Runs -/

/-- If the call is a deletion of a slot that is not in use, the last live slot is not a directory. -/
def FsOp.LastNotDir (s : FS) : FsOp → Prop
  | .deleteFile p => ∀ k, 0 < k → Resolves s p.val k → ¬ InUse s k → (s.files (s.fileCount - 1)).type ≠ .dir
  | _ => True

/-- The slots behind the count, and the root. -/
structure StaleInv (s : FS) : Prop where
  root : 0 < s.fileCount
  stale : NoStaleDir s

theorem staleInv_init (m : ℕ → File) : StaleInv (fsInit m) := by
  refine ⟨Nat.one_pos, fun k hk hlt => ?_⟩
  have hk' : 1 ≤ k := hk
  show (if k = 0 then _ else if k < maxFiles then (m k).clear else m k).type ≠ .dir
  rw [if_neg (by omega), if_pos hlt]
  nofun

theorem StaleInv.created {name : List Byte} {type : FileType} {p : ℕ} {hroom : s.fileCount < maxFiles}
    (h : StaleInv s) : StaleInv (created s name type p hroom) := ⟨Nat.succ_pos _, noStaleDir_created h.stale⟩

theorem StaleInv.createAt {type : FileType} {path : CString} (h : StaleInv s)
    (hs : createAt type s path.val = .ok (r, s')) : StaleInv s' := by
  rcases createAt_ok path.noNul hs with ⟨-, rfl⟩ | ⟨p, hc, -, -, -, -, rfl⟩
  · exact h
  · exact h.created

/-- **A deletion** keeps a root, and no stale directory exactly when the last live slot is none. -/
theorem StaleInv.deleteFile {p : CString} (h : StaleInv s) (hs : fsDeleteFile s p.val = .ok (r, s')) :
    0 < s'.fileCount ∧ (NoStaleDir s' ↔ FsOp.LastNotDir s (.deleteFile p)) := by
  rcases fsDeleteFile_ok hs with ⟨rfl, rfl⟩ | ⟨k, h0, hres, hfree, -, rfl⟩
  · refine ⟨h.root, iff_of_true h.stale fun k h0 hres hfree => ?_⟩
    -- the call would have deleted the slot
    have hdel := fsDeleteFile_of_leaf h0 hres (leaf_of_free hfree)
    cases hs.symm.trans hdel
  · have hk : k < s.fileCount := hres.lt p.noNul h.root
    refine ⟨Nat.sub_pos_of_lt (by omega),
      (noStaleDir_deleted h.stale hk).trans ⟨fun hl _ _ _ _ => hl, fun hl => ?_⟩⟩
    exact hl k h0 hres hfree

/-- **One call**: no stale directory comes up exactly when no deletion leaves one. -/
theorem StaleInv.step (h : StaleInv s) (hop : op.Changes) (hs : fsNext s op = .ok s') :
    0 < s'.fileCount ∧ (NoStaleDir s' ↔ op.LastNotDir s) := by
  have hkeep : StaleInv s' → 0 < s'.fileCount ∧ (NoStaleDir s' ↔ True) :=
    fun h' => ⟨h'.root, iff_of_true h'.stale trivial⟩
  cases op with
  | createFile name type p =>
    obtain ⟨r, hr⟩ := fsNext_update.mp hs
    rcases fsCreateFile_ok name.noNul hr with ⟨-, rfl⟩ | ⟨hc, -, -, rfl⟩
    · exact hkeep h
    · exact hkeep h.created
  | mkdir path =>
    obtain ⟨r, hr⟩ := fsNext_update.mp hs
    exact hkeep (h.createAt hr)
  | create path =>
    obtain ⟨r, hr⟩ := fsNext_update.mp hs
    exact hkeep (h.createAt hr)
  | write path data =>
    obtain ⟨r, hr⟩ := fsNext_update.mp hs
    rcases fsWrite_ok path.noNul hr with ⟨-, rfl⟩ | ⟨i, -, -, -, rfl⟩
    · exact hkeep h
    · exact hkeep ⟨h.root, noStaleDir_write h.stale⟩
  | deleteFile p =>
    obtain ⟨r, hr⟩ := fsNext_update.mp hs
    exact h.deleteFile hr
  | read _ _ => exact hop.elim
  | delete _ => exact hop.elim
  | listDir _ _ => exact hop.elim
  | parsePath _ => exact hop.elim

theorem lastNotDir_iff (h : StaleInv s) (hop : op.Changes) :
    op.LastNotDir s ↔ ∀ s', fsNext s op = .ok s' → CreatesLive s' := by
  cases hnext : fsNext s op with
  | ok s' =>
    rw [← (h.step hop hnext).2, ← createsLive_iff]
    exact ⟨fun hlive t ht => by cases ht; exact hlive, fun hall => hall s' rfl⟩
  | error e =>
    refine iff_of_true ?_ (by nofun)
    cases op with
    | deleteFile p =>
      intro k h0 hres hfree
      have hdel := fsDeleteFile_of_leaf h0 hres (leaf_of_free hfree)
      cases hnext.symm.trans (fsNext_update.mpr ⟨0, hdel⟩)
    | _ => trivial

/-- **No creation under a dead slot**, in every state reached by the public operations, while no deletion
happens with a directory in the last live slot; and this is the exact condition for a run. -/
theorem create_live (m : ℕ → File) (ops : List FsOp) (hops : ∀ op ∈ ops, op.Changes) :
    (∀ s, AllSteps fsNext (fun s op => op.LastNotDir s) (fsInit m) ops → fsRun (fsInit m) ops = .ok s →
      CreatesLive s) ∧
    (AllSteps fsNext (fun s op => op.LastNotDir s) (fsInit m) ops ↔
      AllSteps fsNext (fun s op => ∀ s', fsNext s op = .ok s' → CreatesLive s') (fsInit m) ops) := by
  have hkeep : ∀ s op s₁, StaleInv s → op.Changes → op.LastNotDir s → fsNext s op = .ok s₁ → StaleInv s₁ := by
    intro s op s₁ h hop hlast hs
    obtain ⟨hroot, hiff⟩ := h.step hop hs
    exact ⟨hroot, hiff.mpr hlast⟩
  constructor
  · intro s hlast hrun
    have hguard := allSteps_and (G := fun _ op => FsOp.Changes op) (allSteps_of_forall hops) hlast
    exact createsLive_iff.mpr (exec_inv (I := StaleInv) (fun s op s₁ h hg => hkeep s op s₁ h hg.1 hg.2)
      (staleInv_init m) hguard hrun).stale
  · exact allSteps_congr (fun s op h hop => lastNotDir_iff h hop) hkeep (staleInv_init m) hops

/-- The last slot is a file when `/d/f` is deleted. -/
theorem create_live_sample : ∃ s, fsRun (fsInit zeroFiles)
    [.mkdir (lit "/d"), .create (lit "/d/f"), .deleteFile (lit "/d/f")] = .ok s ∧ CreatesLive s := by
  have hrun : ((fsRun (fsInit zeroFiles) [.mkdir (lit "/d"), .create (lit "/d/f")]).bind fun s =>
      (fsNext s (.deleteFile (lit "/d/f"))).bind fun _ =>
        .ok (decide ((s.files (s.fileCount - 1)).type = .dir))) =
      .ok false := by
    decide +kernel
  obtain ⟨s, hs, h1⟩ := bind_ok_iff.mp hrun
  obtain ⟨s', hs', h2⟩ := bind_ok_iff.mp h1
  have hlast : (s.files (s.fileCount - 1)).type ≠ .dir := by simpa using h2
  have hfirst : AllSteps fsNext (fun s op => op.LastNotDir s) (fsInit zeroFiles)
      [.mkdir (lit "/d"), .create (lit "/d/f")] := ⟨trivial, fun _ _ => ⟨trivial, fun _ _ => trivial⟩⟩
  have hrun' : fsRun (fsInit zeroFiles)
    ([.mkdir (lit "/d"), .create (lit "/d/f")] ++ [.deleteFile (lit "/d/f")]) =
      .ok s' := exec_snoc_eq_ok.mpr ⟨s, hs, hs'⟩
  refine ⟨s', hrun',
    (create_live zeroFiles _ (by decide)).1 s' (allSteps_snoc.mpr ⟨hfirst, fun t ht => ?_⟩) hrun'⟩
  cases hs.symm.trans ht
  exact fun _ _ _ _ => hlast

/-- The slot of a deleted directory is accepted as a parent, and the new entry is its own parent. -/
theorem create_under_dead :
    ∃ s s', fsRun (fsInit zeroFiles) [.mkdir (lit "/d"), .deleteFile (lit "/d")] = .ok s ∧
    s.fileCount = 1 ∧ fsCreateFile s (str "x") .file 1 = .ok (1, s') ∧ (s'.files 1).parentIndex = 1 := by
  have hrun : ((fsRun (fsInit zeroFiles) [.mkdir (lit "/d"), .deleteFile (lit "/d")]).bind fun s =>
      (fsCreateFile s (str "x") .file 1).bind fun x => .ok (s.fileCount, x.1, (x.2.files 1).parentIndex)) =
      .ok (1, 1, 1) := by
    decide +kernel
  obtain ⟨s, hs, h1⟩ := bind_ok_iff.mp hrun
  obtain ⟨⟨r, s'⟩, hc, h2⟩ := bind_ok_iff.mp h1
  simp only [Except.ok.injEq, Prod.mk.injEq] at h2
  obtain ⟨hcount, rfl, hparent⟩ := h2
  exact ⟨s, s', hs, hcount, hc, hparent⟩

end FoxOS
