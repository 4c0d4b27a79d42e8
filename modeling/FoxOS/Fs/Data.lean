import FoxOS.Fs.Create

/-!
# FoxOS.Fs.Data — the last write wins

`WritesTo s op i data` says that the call `op` writes `data` to slot `i`, through whatever spelling of its
path; `LastData s ops i D` says that the last such call of a run left `D`.  `stores_step` is what one
call without deletion does to the contents of every slot, `Holds` is what a whole run leaves in the table,
and `last_write_wins` is what `fs_read` then returns.
-/

namespace FoxOS

open Segs ParentTable Runs

/-! ### Contents of a file -/

/-- The first `size` bytes. -/
def File.contents (f : File) : List Byte := (List.range f.size).map f.data

theorem writeSize_eq_min (data : List Byte) : writeSize data = min data.length maxFileSize := by
  unfold writeSize
  split_ifs <;> omega

/-- A write leaves the data, cut to the size of a file. -/
theorem contents_write (f : File) (data : List Byte) :
    (f.write data (writeSize data)).contents = data.take maxFileSize := by
  have hsize : (f.write data (writeSize data)).size = writeSize data := rfl
  refine List.ext_getElem ?_ ?_
  · rw [File.contents, List.length_map, List.length_range, hsize, writeSize_eq_min, List.length_take,
      Nat.min_comm]
  · intro j h1 h2
    have hj : j < writeSize data := by simpa [File.contents, hsize] using h1
    have hlen : j < data.length := by rw [writeSize_eq_min] at hj; omega
    simp [File.contents, File.write, hj, List.getD_eq_getElem?_getD, hlen]

/-- **`fs_read`** on a file copies the front of its contents. -/
theorem fsRead_of_file {s : FS} {path : List Byte} {i : ℕ} (hr : Resolves s path i)
    (ht : (s.files i).type = .file) (n : ℕ) :
    fsRead s path n = .ok ((min n (s.files i).contents.length : ℕ), (s.files i).contents.take n) := by
  have hget : fsGetFile s path = .ok (some i) := by
    rw [fsGetFile, hr, Except.bind, if_neg (by omega), Int.toNat_natCast]
  have hmin : (if n > (s.files i).size then (s.files i).size else n) = min n (s.files i).size := by
    split_ifs <;> omega
  rw [fsRead, hget, Except.bind]
  simp only [ht, ne_eq, not_true_eq_false, if_false, hmin, File.contents, List.length_map,
    List.length_range, ← List.map_take, List.take_range]

/-! ### Writes in a run -/

/-- The call writes `data` to slot `i`. -/
def WritesTo (s : FS) (op : FsOp) (i : ℕ) (data : List Byte) : Prop :=
  ∃ (q : CString) (r : Int) (s' : FS), op = .write q data ∧ Resolves s q.val i ∧
    fsWrite s q.val data = .ok (r, s') ∧ 0 ≤ r

/-- No call of the run from `s` writes to slot `i`. -/
def NoWrite (s : FS) (ops : List FsOp) (i : ℕ) : Prop :=
  AllSteps fsNext (fun s op => ∀ data, ¬ WritesTo s op i data) s ops

/-- `D` is what the most recent write to slot `i` in the run from `s` leaves, the empty string if there is
none. -/
def LastData (s : FS) (ops : List FsOp) (i : ℕ) (D : List Byte) : Prop :=
  (D = [] ∧ NoWrite s ops i) ∨
  ∃ before op after s₀ s₁ data, ops = before ++ op :: after ∧ fsRun s before = .ok s₀ ∧
    WritesTo s₀ op i data ∧ fsNext s₀ op = .ok s₁ ∧ NoWrite s₁ after i ∧ D = data.take maxFileSize

variable {s s' : FS} {op : FsOp} {ops : List FsOp} {i : ℕ} {data D : List Byte}

theorem WritesTo.live (h : WritesTo s op i data) (hI : FsInv s) : i < s.fileCount := by
  obtain ⟨q, -, -, -, hr, -⟩ := h
  exact hr.lt q.noNul hI.count_pos

theorem LastData.snoc_write {s₀ : FS} (hrun : fsRun s₀ ops = .ok s) (h : WritesTo s op i data)
    (hstep : fsNext s op = .ok s') : LastData s₀ (ops ++ [op]) i (data.take maxFileSize) :=
  Or.inr ⟨ops, op, [], s, s', data, rfl, hrun, h, hstep, trivial, rfl⟩

theorem LastData.snoc_other {s₀ : FS} (hl : LastData s₀ ops i D) (hrun : fsRun s₀ ops = .ok s)
    (h : ∀ data, ¬ WritesTo s op i data) : LastData s₀ (ops ++ [op]) i D := by
  rcases hl with ⟨hD, hno⟩ | ⟨before, op', after, s₁, s₂, data, rfl, hb, hw, hn, ha, hD⟩
  · refine Or.inl ⟨hD, allSteps_snoc.mpr ⟨hno, fun s' hs' => ?_⟩⟩
    cases hs'.symm.trans hrun
    exact h
  · refine Or.inr ⟨before, op', after ++ [op], s₁, s₂, data, by simp, hb, hw, hn, ?_, hD⟩
    refine allSteps_snoc.mpr ⟨ha, fun s' hs' => ?_⟩
    have hfull : fsRun s₀ (before ++ op' :: after) = .ok s' :=
      exec_append_eq_ok.mpr ⟨s₁, hb, exec_cons_eq_ok.mpr ⟨s₂, hn, hs'⟩⟩
    cases hfull.symm.trans hrun
    exact h

/-! ### One call -/

/-- The calls that only look at the table. -/
def FsOp.Queries : FsOp → Prop
  | .read _ _ | .listDir _ _ | .parsePath _ => True
  | _ => False

/-- The calls that build or look; none of them deletes. -/
def FsOp.Stores (op : FsOp) : Prop := op.Builds ∨ op.Queries

instance : DecidablePred FsOp.Stores
  | .mkdir _ | .create _ | .write _ _ => isTrue (Or.inl trivial)
  | .read _ _ | .listDir _ _ | .parsePath _ => isTrue (Or.inr trivial)
  | .createFile _ _ _ | .deleteFile _ | .delete _ => isFalse (fun h => h.elim id id)

theorem fsNext_query {r : Except Fault (Int × List Byte)}
    (h : ((ofQuery s r).bind fun (_, s') => .ok s') = .ok s') : s' = s := by
  rcases r with e | ⟨c, bytes⟩
  · cases h
  · cases h; rfl

theorem queries_step (hop : op.Queries) (h : fsNext s op = .ok s') : s' = s := by
  cases op with
  | read _ _ => exact fsNext_query h
  | listDir _ _ => exact fsNext_query h
  | parsePath _ => exact fsNext_query h
  | createFile _ _ _ => exact hop.elim
  | mkdir _ => exact hop.elim
  | create _ => exact hop.elim
  | write _ _ => exact hop.elim
  | deleteFile _ => exact hop.elim
  | delete _ => exact hop.elim

/-- What one call does to the contents of slot `i`. -/
inductive Effect (s : FS) (op : FsOp) (s' : FS) (i : ℕ) : Prop
  | kept (hi : i < s.fileCount) (hno : ∀ data, ¬ WritesTo s op i data)
      (hc : (s'.files i).contents = (s.files i).contents)
  | written {data : List Byte} (hw : WritesTo s op i data)
      (hc : (s'.files i).contents = data.take maxFileSize)
  | fresh (hi : s.fileCount ≤ i) (hc : (s'.files i).contents = [])

theorem createAt_effect {type : FileType} {path : CString} {r : Int}
    (hop : ∀ i data, ¬ WritesTo s op i data) (h : createAt type s path.val = .ok (r, s'))
    (hi : i < s'.fileCount) : s.fileCount ≤ s'.fileCount ∧ Effect s op s' i := by
  rcases createAt_ok path.noNul h with ⟨-, rfl⟩ | ⟨p, hc, -, -, -, -, rfl⟩
  · exact ⟨Nat.le_refl _, .kept hi (hop i) rfl⟩
  · refine ⟨Nat.le_succ _, ?_⟩
    rcases Nat.lt_succ_iff_lt_or_eq.mp hi with hlt | rfl
    · exact .kept hlt (hop i) (by rw [created_files_of_ne (Nat.ne_of_lt hlt)])
    · exact .fresh (Nat.le_refl _) (by rw [created_files_last]; rfl)

theorem fsWrite_effect (hI : FsInv s) {path : CString} {r : Int}
    (h : fsWrite s path.val data = .ok (r, s')) (hi : i < s'.fileCount) :
    s.fileCount ≤ s'.fileCount ∧ Effect s (.write path data) s' i := by
  rcases fsWrite_ok path.noNul h with ⟨rfl, rfl⟩ | ⟨j, hw, -, rfl, rfl⟩
  · refine ⟨Nat.le_refl _, .kept hi ?_ rfl⟩
    rintro d ⟨q, r, t, hop, -, hcall, hr⟩
    cases hop
    cases hcall.symm.trans h
    omega
  have hj : Resolves s path.val j := (resolves_iff hI.names path.noNul).mpr hw
  refine ⟨Nat.le_refl _, ?_⟩
  by_cases hij : i = j
  · subst hij
    refine .written ⟨path, _, _, rfl, hj, h, by omega⟩ ?_
    rw [FS.setFile]
    simp only [Function.update_self]
    exact contents_write _ _
  · refine .kept hi ?_ ?_
    · rintro d ⟨q, r, t, hop, hq, -, -⟩
      cases hop
      exact hij (hq.unique hj)
    · rw [FS.setFile]
      simp only [Function.update_of_ne hij]

/-- **One call without deletion**: the invariant stays, slots stay live, and every live slot kept its
contents, was written, or is new and empty. -/
theorem stores_step (hI : FsInv s) (hop : op.Stores) (h : fsNext s op = .ok s') :
    FsInv s' ∧ ∀ i < s'.fileCount, s.fileCount ≤ s'.fileCount ∧ Effect s op s' i := by
  rcases hop with hb | hq
  · refine ⟨(builds_step hI hb h).inv hI, fun i hi => ?_⟩
    cases op with
    | mkdir path =>
      obtain ⟨r, hr⟩ := fsNext_update.mp h
      exact createAt_effect (by rintro i d ⟨q, r, t, hop, -⟩; cases hop) hr hi
    | create path =>
      obtain ⟨r, hr⟩ := fsNext_update.mp h
      exact createAt_effect (by rintro i d ⟨q, r, t, hop, -⟩; cases hop) hr hi
    | write path data =>
      obtain ⟨r, hr⟩ := fsNext_update.mp h
      exact fsWrite_effect hI hr hi
    | createFile _ _ _ => exact hb.elim
    | read _ _ => exact hb.elim
    | deleteFile _ => exact hb.elim
    | delete _ => exact hb.elim
    | listDir _ _ => exact hb.elim
    | parsePath _ => exact hb.elim
  · obtain rfl := queries_step hq h
    refine ⟨hI, fun i hi => ⟨Nat.le_refl _, .kept hi ?_ rfl⟩⟩
    rintro d ⟨q, r, t, rfl, -⟩
    exact hq

/-! ### Whole runs -/

/-- What a run from `s₀` leaves in the table. -/
structure Holds (s₀ : FS) (ops : List FsOp) (s : FS) : Prop where
  inv : FsInv s
  live : ∀ i < s.fileCount, LastData s₀ ops i (s.files i).contents
  dead : ∀ i, s.fileCount ≤ i → NoWrite s₀ ops i

theorem Holds.snoc {s₀ : FS} (h : Holds s₀ ops s) (hrun : fsRun s₀ ops = .ok s) (hop : op.Stores)
    (hstep : fsNext s op = .ok s') : Holds s₀ (ops ++ [op]) s' := by
  obtain ⟨hI', heff⟩ := stores_step h.inv hop hstep
  have hcount : s.fileCount ≤ s'.fileCount := (heff 0 hI'.count_pos).1
  -- a slot that is not live before the call is not written by it
  have hdead : ∀ i, s.fileCount ≤ i → NoWrite s₀ (ops ++ [op]) i := by
    intro i hi
    refine allSteps_snoc.mpr ⟨h.dead i hi, fun t ht data hw => ?_⟩
    cases ht.symm.trans hrun
    have := hw.live h.inv
    omega
  refine ⟨hI', fun i hi => ?_, fun i hi => hdead i (Nat.le_trans hcount hi)⟩
  obtain ⟨-, heff⟩ := heff i hi
  cases heff with
  | kept hlt hno hc => rw [hc]; exact (h.live i hlt).snoc_other hrun hno
  | written hw hc => rw [hc]; exact .snoc_write hrun hw hstep
  | fresh hge hc => rw [hc]; exact Or.inl ⟨rfl, hdead i hge⟩

theorem holds_init (m : ℕ → File) : Holds (fsInit m) [] (fsInit m) := by
  refine ⟨fsInit_inv m, fun i hi => Or.inl ⟨?_, trivial⟩, fun _ _ => trivial⟩
  have hi0 : i = 0 := by
    have : i < 1 := hi
    omega
  subst hi0
  rfl

/-- **Run lemma**: along a run without deletions every live slot holds its last data. -/
theorem holds_run (m : ℕ → File) (hops : ∀ op ∈ ops, FsOp.Stores op) (hrun : fsRun (fsInit m) ops = .ok s) :
    Holds (fsInit m) ops s := by
  induction ops using List.reverseRecOn generalizing s with
  | nil => cases hrun; exact holds_init m
  | append_singleton ops op ih =>
    obtain ⟨s₁, h1, h2⟩ := exec_snoc_eq_ok.mp hrun
    exact (ih (fun o ho => hops o (by simp [ho])) h1).snoc h1 (hops op (by simp)) h2

/-- **Last write wins**: after every run without deletions `fs_read` returns the front of the data last
written to the slot, and every successful `fs_write` returns the number of bytes it kept. -/
theorem last_write_wins (m : ℕ → File) (hops : ∀ op ∈ ops, FsOp.Stores op)
    (hrun : fsRun (fsInit m) ops = .ok s) :
    (∀ (p : CString) i n, Resolves s p.val i → (s.files i).type = .file →
      ∃ D, LastData (fsInit m) ops i D ∧ fsRead s p.val n = .ok ((min n D.length : ℕ), D.take n)) ∧
    (∀ before q data after s₀ r s₁, ops = before ++ .write q data :: after →
      fsRun (fsInit m) before = .ok s₀ → fsWrite s₀ q.val data = .ok (r, s₁) → 0 ≤ r →
      r = (min data.length maxFileSize : ℕ)) := by
  have hH := holds_run m hops hrun
  constructor
  · intro p i n hr ht
    have hi : i < s.fileCount := hr.lt p.noNul hH.inv.count_pos
    exact ⟨_, hH.live i hi, fsRead_of_file hr ht n⟩
  · intro before q data after s₀ r s₁ _ _ hcall hr
    rcases fsWrite_ok q.noNul hcall with ⟨rfl, -⟩ | ⟨i, -, -, rfl, -⟩
    · omega
    · rw [writeSize_eq_min]

theorem last_write_wins_sample : ∃ s, fsRun (fsInit zeroFiles)
      [.create (lit "/f"), .write (lit "/f") [1, 2], .write (lit "//f/") [3]] = .ok s ∧
    LastData (fsInit zeroFiles)
        [.create (lit "/f"), .write (lit "/f") [1, 2], .write (lit "//f/") [3]] 1 [3] ∧
      fsRead s (str "/f") 9 = .ok (1, [3]) := by
  have hcalls : ((fsRun (fsInit zeroFiles)
      [.create (lit "/f"), .write (lit "/f") [1, 2], .write (lit "//f/") [3]]).bind fun s =>
      .ok (fsParsePath s (str "/f"), (s.files 1).type, fsRead s (str "/f") 9)) =
        .ok (.ok 1, .file, .ok (1, [3])) := by
    decide +kernel
  obtain ⟨s, hrun, h⟩ := bind_ok_iff.mp hcalls
  obtain ⟨hr, ht, hread⟩ : fsParsePath s (str "/f") = .ok 1 ∧ (s.files 1).type = .file ∧
      fsRead s (str "/f") 9 = .ok (1, [3]) := by
    simpa only [Except.ok.injEq, Prod.mk.injEq] using h
  obtain ⟨D, hD, hread'⟩ := (last_write_wins zeroFiles (by decide) hrun).1 (lit "/f") 1 9 hr ht
  -- one byte is read, so the data are not longer than the buffer of the read
  obtain ⟨hlen, htake⟩ := Prod.mk.inj (Except.ok.inj (hread'.symm.trans hread))
  have hD3 : D = [3] := by
    rw [← htake, List.take_of_length_le]
    omega
  exact ⟨s, hrun, hD3 ▸ hD, hread⟩

end FoxOS
