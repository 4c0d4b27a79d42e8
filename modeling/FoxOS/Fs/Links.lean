import FoxOS.Fs.Delete

/-!
# FoxOS.Fs.Links — the links after any deletions

`fs_delete_file` moves the slots behind the deleted one up and has to follow with the links.  Its nested loops
decrement a link once for every moved slot that the link still lies behind, so what comes out is not the link
less one: a link `p` behind the deleted slot `k` ends at `k + (p - k) / 2` (`linkLoop_eq`).  The directory of an
entry may become another one, even a file or the entry itself.

Still, no deletion makes a link dangle: `LinksInv` holds in every state that creations, writes and deletions
reach, near or not (`links_stay_live`).
-/

namespace FoxOS

open Segs ParentTable Runs

/-- Where a link `p` ends when slot `k` is deleted. -/
def halve (k p : ℕ) : ℕ := if p ≤ k then p else k + (p - k) / 2

/-- **The loops of the deletion**, on one link. -/
theorem linkLoop_eq {n k p : ℕ} (h : p ≤ k + n) : linkLoop n k p = halve k p := by
  induction n generalizing k p with
  | zero => rw [linkLoop, halve, if_pos (by omega)]
  | succ n ih =>
    rw [linkLoop, halve]
    by_cases hp : k < p
    · rw [if_pos hp, if_neg (by omega), ih (by omega), halve]
      split_ifs <;> omega
    · rw [if_neg hp, if_pos (by omega), ih (by omega), halve, if_pos (by omega)]

theorem halve_le {k p : ℕ} : halve k p ≤ p := by
  unfold halve
  split_ifs <;> omega

/-- A link that lies behind the deleted slot comes at least one slot forward. -/
theorem halve_lt {k p : ℕ} (h : k < p) : halve k p < p := by
  unfold halve
  split_ifs <;> omega

/-! ### The invariant -/

/-- What every sequence of creations, writes and deletions keeps. -/
structure LinksInv (s : FS) : Prop where
  count_pos : 0 < s.fileCount
  root : (s.files 0).type = .dir ∧ (s.files 0).nameStr = []
  /-- no link points behind its own slot -/
  link : ∀ i < s.fileCount, (s.files i).parentIndex ≤ i
  typed : ∀ i < s.fileCount, (s.files i).type ≠ .none
  named : Named s
  names : NamesOk s
  noSlash : ∀ i < s.fileCount, slash ∉ (s.files i).nameStr
  size_le : ∀ i < s.fileCount, (s.files i).size ≤ maxFileSize

section Steps

variable {s s' : FS} {name path : List Byte} {t : FileType} {p k : ℕ}

theorem fsInit_linksInv (m : ℕ → File) : LinksInv (fsInit m) := by
  have hI := fsInit_inv m
  have hzero : ∀ i < (fsInit m).fileCount, i = 0 := fun i hi => Nat.lt_one_iff.mp hi
  refine ⟨hI.count_pos, ⟨hI.rootDir, hI.rootName⟩, ?_, ?_, fsInit_named m, hI.names, hI.noSlash, hI.size_le⟩
  · intro i hi
    rw [hzero i hi]
    exact le_rfl
  · intro i hi
    rw [hzero i hi]
    nofun

/-- An appended entry keeps what the old ones have and it has itself. -/
theorem forall_created {P : ℕ → File → Prop} {hroom : s.fileCount < maxFiles}
    (hold : ∀ i < s.fileCount, P i (s.files i)) (hnew : P s.fileCount ((s.files s.fileCount).create name t p)) :
    ∀ i < (created s name t p hroom).fileCount, P i ((created s name t p hroom).files i) := by
  intro i hi
  rcases Nat.lt_succ_iff_lt_or_eq.mp hi with hi | rfl
  · rw [created_files_of_ne (Nat.ne_of_lt hi)]
    exact hold i hi
  · rw [created_files_last]
    exact hnew

theorem LinksInv.created (h : LinksInv s) (hroom : s.fileCount < maxFiles) (hp : p < s.fileCount)
    (h0 : (0 : Byte) ∉ name)
    (hs : slash ∉ name) (hne : name ≠ []) (hlen : name.length < maxFilename) (ht : t ≠ .none) :
    LinksInv (created s name t p hroom) := by
  have hname : ((s.files s.fileCount).create name t p).nameStr = name := cstr_strcpy h0 hlen _
  have hroot : (FoxOS.created s name t p hroom).files 0 = s.files 0 :=
    created_files_of_ne (Nat.ne_of_lt h.count_pos)
  refine ⟨Nat.succ_pos _, by rw [hroot]; exact h.root, ?_, ?_, h.named.created h0 hne hlen, ?_, ?_, ?_⟩
  · exact forall_created (P := fun i f => f.parentIndex ≤ i) h.link (Nat.le_of_lt hp)
  · exact forall_created (P := fun _ f => f.type ≠ .none) h.typed ht
  · exact forall_created (P := fun _ f => Terminated f.name maxFilename) h.names (terminated_strcpy hlen _)
  · exact forall_created (P := fun _ f => slash ∉ f.nameStr) h.noSlash (by rw [hname]; exact hs)
  · exact forall_created (P := fun _ f => f.size ≤ maxFileSize) h.size_le (Nat.zero_le _)

theorem LinksInv.write (h : LinksInv s) {i : ℕ} {data : List Byte} :
    LinksInv (s.setFile i ((s.files i).write data (writeSize data))) := by
  have hfr := setFile_write_frame s i data (writeSize data)
  have hroot := hfr 0
  refine ⟨h.count_pos,
    ⟨by rw [hroot.2.1]; exact h.root.1, by rw [File.nameStr, hroot.1]; exact h.root.2⟩, ?_, ?_,
    h.named.write, ?_, ?_, ?_⟩
  · intro j hj
    rw [(hfr j).2.2]
    exact h.link j hj
  · intro j hj
    rw [(hfr j).2.1]
    exact h.typed j hj
  · intro j hj
    rw [(hfr j).1]
    exact h.names j hj
  · intro j hj
    rw [File.nameStr, (hfr j).1]
    exact h.noSlash j hj
  · intro j hj
    by_cases hji : j = i
    · rw [hji]
      simpa [FS.setFile, File.write] using writeSize_le data
    · simp only [FS.setFile, Function.update_of_ne hji]
      exact h.size_le j hj

/-- **The table after a deletion**: the slots behind the deleted one have moved up, and every link is halved
towards it. -/
theorem LinksInv.deleted_entry (h : LinksInv s) (hk : k < s.fileCount) {i : ℕ} (hi : i < s.fileCount - 1) :
    (deleted s k).files i =
      { s.files (skip k i) with parentIndex := halve k (s.files (skip k i)).parentIndex } := by
  have hlt : skip k i < s.fileCount := skip_lt hi
  have hlink := h.link _ hlt
  rw [FoxOS.deleted_entry hk hi, linkLoop_eq (by omega)]

theorem LinksInv.deleted (h : LinksInv s) (h0 : 0 < k) (hk : k < s.fileCount) : LinksInv (deleted s k) := by
  have hcount : (FoxOS.deleted s k).fileCount = s.fileCount - 1 := rfl
  have hzero : skip k 0 = 0 := if_pos h0
  have hroot := h.deleted_entry hk (i := 0) (by omega)
  rw [hzero] at hroot
  refine ⟨by rw [hcount]; omega, by rw [hroot]; exact h.root, ?_, ?_, h.named.deleted hk, ?_, ?_, ?_⟩
  · intro i hi
    rw [h.deleted_entry hk hi]
    show halve k (s.files (skip k i)).parentIndex ≤ i
    have hlink := h.link _ (skip_lt (k := k) hi)
    -- a slot in front of the deleted one stays; one behind it moves up, and so do the links behind
    by_cases hik : i < k
    · rw [skip, if_pos hik] at hlink ⊢
      exact halve_le.trans hlink
    · rw [skip, if_neg hik] at hlink ⊢
      by_cases hp : k < (s.files (i + 1)).parentIndex
      · exact Nat.le_of_lt_succ (lt_of_lt_of_le (halve_lt hp) hlink)
      · have hle := halve_le (k := k) (p := (s.files (i + 1)).parentIndex)
        omega
  · intro i hi
    rw [h.deleted_entry hk hi]
    exact h.typed _ (skip_lt hi)
  · intro i hi
    rw [h.deleted_entry hk hi]
    exact h.names _ (skip_lt hi)
  · intro i hi
    rw [h.deleted_entry hk hi]
    exact h.noSlash _ (skip_lt hi)
  · intro i hi
    rw [h.deleted_entry hk hi]
    exact h.size_le _ (skip_lt hi)

theorem LinksInv.createAt (h : LinksInv s) (h0 : (0 : Byte) ∉ path) (ht : t ≠ .none) {r : Int}
    (hs : createAt t s path = .ok (r, s')) : LinksInv s' := by
  rcases createAt_ok h0 hs with ⟨-, rfl⟩ | ⟨p, hc, hw, hne, hlen, -, rfl⟩
  · exact h
  · exact h.created hc.room (ParentTable.walk_lt h.count_pos hw) (nul_not_mem_namePart h0)
      (slash_not_mem_namePart path) hne hlen ht

/-- What a call of `fs_delete_file` does, in every such state. -/
theorem LinksInv.deleteFile (h : LinksInv s) {p : CString} {r : Int} (hs : fsDeleteFile s p.val = .ok (r, s')) :
    (r = -1 ∧ s' = s) ∨ ∃ k, 0 < k ∧ k < s.fileCount ∧ Resolves s p.val k ∧ r = 0 ∧ s' = FoxOS.deleted s k := by
  rcases fsDeleteFile_ok hs with h1 | ⟨k, h0, hres, -, hr, hs'⟩
  · exact Or.inl h1
  · exact Or.inr ⟨k, h0, hres.lt p.noNul h.count_pos, hres, hr, hs'⟩

/-- **One call** keeps the invariant. -/
theorem LinksInv.step (h : LinksInv s) {op : FsOp} (hop : op.Edits) (hs : fsNext s op = .ok s') :
    LinksInv s' := by
  rcases hop.cases with hb | ⟨p, rfl⟩
  · cases op with
    | mkdir path =>
      obtain ⟨r, hr⟩ := fsNext_update.mp hs
      exact h.createAt (t := .dir) path.noNul nofun hr
    | create path =>
      obtain ⟨r, hr⟩ := fsNext_update.mp hs
      exact h.createAt (t := .file) path.noNul nofun hr
    | write path data =>
      obtain ⟨r, hr⟩ := fsNext_update.mp hs
      rcases fsWrite_ok path.noNul hr with ⟨-, rfl⟩ | ⟨i, -, -, -, rfl⟩
      · exact h
      · exact h.write
    | _ => exact hb.elim
  · obtain ⟨r, hr⟩ := fsNext_update.mp hs
    rcases h.deleteFile hr with ⟨-, rfl⟩ | ⟨k, h0, hk, -, -, rfl⟩
    · exact h
    · exact h.deleted h0 hk

end Steps

/-- **Links stay live**: in every state that `fs_mkdir`, `fs_create`, `fs_write` and `fs_delete_file` calls
reach from `fs_init`, over any memory and whatever is deleted, no call faults and the invariant holds: every
live link points to a live slot, at or in front of its own.  The paths are absolute with components below 256
bytes, those to be created also below 512 bytes (`FsOp.PathOk`).  The next deletion moves the slots behind the
deleted one up by one and takes every link behind it half of the way to it. -/
theorem links_stay_live (m : ℕ → File) (ops : List FsOp) (hops : ∀ op ∈ ops, op.Edits ∧ op.PathOk) :
    ∃ s, fsRun (fsInit m) ops = .ok s ∧ LinksInv s ∧
      ∀ (p : CString) s', fsDeleteFile s p.val = .ok (0, s') → ∃ k, Resolves s p.val k ∧
        s'.fileCount = s.fileCount - 1 ∧ ∀ i < s'.fileCount, s'.files i =
          { s.files (skip k i) with parentIndex := halve k (s.files (skip k i)).parentIndex } := by
  have hstep : ∀ s op, LinksInv s → op.Edits ∧ op.PathOk → ∃ s', fsNext s op = .ok s' ∧ LinksInv s' := by
    intro s op h hop
    obtain ⟨s', hs'⟩ := edits_total (s := s) hop.1 hop.2
    exact ⟨s', hs', h.step hop.1 hs'⟩
  obtain ⟨s, hrun, h⟩ := exec_total hstep (fsInit_linksInv m) hops
  refine ⟨s, hrun, h, fun p s' hdel => ?_⟩
  rcases h.deleteFile hdel with ⟨hr, -⟩ | ⟨k, -, hk, hres, -, rfl⟩
  · exact absurd hr (by decide)
  · exact ⟨k, hres, rfl, fun i hi => h.deleted_entry hk hi⟩

/-- Three deletions leave `e` in slot `2` with itself as its directory: no path leads there any more. -/
theorem links_stay_live_sample : ∃ s, fsRun (fsInit zeroFiles)
    [.create (lit "/x"), .create (lit "/y"), .create (lit "/z"), .mkdir (lit "/d"), .create (lit "/d/e"),
      .deleteFile (lit "/x"), .deleteFile (lit "/d"), .deleteFile (lit "/z")] = .ok s ∧ LinksInv s ∧
    s.fileCount = 3 ∧ (s.files 2).nameStr = str "e" ∧ (s.files 2).parentIndex = 2 := by
  obtain ⟨s, hs, h, -⟩ := links_stay_live zeroFiles
    [.create (lit "/x"), .create (lit "/y"), .create (lit "/z"), .mkdir (lit "/d"), .create (lit "/d/e"),
      .deleteFile (lit "/x"), .deleteFile (lit "/d"), .deleteFile (lit "/z")] (by decide +kernel)
  have hrun : ((fsRun (fsInit zeroFiles)
      [.create (lit "/x"), .create (lit "/y"), .create (lit "/z"), .mkdir (lit "/d"), .create (lit "/d/e"),
        .deleteFile (lit "/x"), .deleteFile (lit "/d"), .deleteFile (lit "/z")]).bind fun s =>
      .ok (s.fileCount, (s.files 2).nameStr, (s.files 2).parentIndex)) = .ok (3, str "e", 2) := by
    decide +kernel
  obtain ⟨s₁, hs₁, h1⟩ := bind_ok_iff.mp hrun
  obtain rfl : s = s₁ := Except.ok.inj (hs.symm.trans hs₁)
  simp only [Except.ok.injEq, Prod.mk.injEq] at h1
  exact ⟨s, hs, h, h1.1, h1.2.1, h1.2.2⟩

end FoxOS
