import FoxOS.Fs.Resolve

/-!
# FoxOS.Fs.Listing — `fs_list_dir` is complete, exact and in bounds

The loop stops before an entry that might not fit (`MAX_FILENAME + 3` bytes), so the text is the listing of
a prefix of the children and the terminator always has room (`listLoop_spec`); no table fills the buffer
of the shell.  `children_names` says in terms of resolution which names a complete listing shows.
-/

namespace FoxOS

open Segs ParentTable

variable {s : FS} {path : List Byte} {d n : ℕ}

/-- Slot `i` is listed under `d`: the root is not, although it is its own parent. -/
def IsChild (s : FS) (d i : ℕ) : Prop := i ≠ 0 ∧ (s.files i).parentIndex = d

instance (s : FS) (d i : ℕ) : Decidable (IsChild s d i) :=
  inferInstanceAs (Decidable (i ≠ 0 ∧ (s.files i).parentIndex = d))

/-- The children of slot `d`, in index order. -/
def children (s : FS) (d : ℕ) : List ℕ := (List.range s.fileCount).filter fun i => decide (IsChild s d i)

/-- What a listing shows of an entry: a line with its name, and a slash behind it for a directory. -/
def childLine (f : File) : List Byte :=
  match f.type with
  | .dir => f.nameStr ++ [slash, newline]
  | .file | .none => f.nameStr ++ [newline]

/-- The lines of the slots `is`. -/
def listing (s : FS) (is : List ℕ) : List Byte := is.flatMap fun i => childLine (s.files i)

/-! ### The loop -/

theorem listEntry_eq (f : File) : listEntry f = childLine f := by
  unfold listEntry childLine
  cases f.type with
  | dir => exact List.append_assoc _ _ _
  | file => exact List.append_assoc _ _ _
  | none => exact List.append_assoc _ _ _

theorem listEntry_length {f : File} (h : f.nameStr.length < maxFilename) :
    (listEntry f).length ≤ maxFilename + 1 := by
  unfold listEntry
  by_cases ht : f.type = .dir
  · simp only [ht, if_true, List.length_append, List.length_singleton]
    omega
  · simp only [ht, if_false, List.append_nil, List.length_append, List.length_singleton]
    omega

theorem listLoop_skip {i : ℕ} (h : ¬ IsChild s d i) (is : List ℕ) (text : List Byte) (count : ℕ) :
    listLoop s d n (i :: is) text count = listLoop s d n is text count := by
  rw [listLoop]
  by_cases h0 : i = 0
  · rw [if_pos h0]
  · rw [if_neg h0, if_neg (fun hp => h ⟨h0, hp⟩)]

/-- A child is appended when the longest entry and the terminator still fit; otherwise the loop ends. -/
theorem listLoop_child {i : ℕ} {text : List Byte} (h : IsChild s d i) (hn : n < 2 ^ 32) (ht : text.length < n)
    (hname : (s.files i).nameStr.length < maxFilename) (is : List ℕ) (count : ℕ) :
    listLoop s d n (i :: is) text count =
      if n < text.length + (maxFilename + 3) then .ok (text, count)
      else listLoop s d n is (text ++ listEntry (s.files i)) (count + 1) := by
  have hent := listEntry_length hname
  -- the subtraction does not wrap while the text is shorter than the buffer
  have hrem : ((n : Int) - text.length) % 2 ^ 32 = n - text.length := by
    apply Int.emod_eq_of_lt <;> omega
  simp only [listLoop, if_neg h.1, if_pos h.2, hrem]
  by_cases hfull : n < text.length + (maxFilename + 3)
  · rw [if_pos hfull, if_pos (by omega)]
  · rw [if_neg hfull, if_neg (by omega), if_neg (by rw [List.length_append]; omega)]

/-- **The loop** lists a prefix of the children among the slots left, leaves room for the terminator, and lists
all of them when the buffer has room for that many longest entries. -/
theorem listLoop_spec (hn : n < 2 ^ 32) {is : List ℕ}
    (his : ∀ i ∈ is, (s.files i).nameStr.length < maxFilename) (text : List Byte) (count : ℕ)
    (ht : text.length < n) :
    ∃ k ≤ (is.filter fun i => decide (IsChild s d i)).length,
      listLoop s d n is text count =
        .ok (text ++ listing s ((is.filter fun i => decide (IsChild s d i)).take k), count + k) ∧
      (text ++ listing s ((is.filter fun i => decide (IsChild s d i)).take k)).length < n ∧
      (text.length + (maxFilename + 1) * (is.filter fun i => decide (IsChild s d i)).length + 2 ≤ n →
        k = (is.filter fun i => decide (IsChild s d i)).length) := by
  induction is generalizing text count with
  | nil => exact ⟨0, le_rfl, by simp [listLoop, listing], by simpa [listing] using ht, fun _ => rfl⟩
  | cons i is ih =>
    have hname := his i List.mem_cons_self
    have his' : ∀ j ∈ is, (s.files j).nameStr.length < maxFilename :=
      fun j hj => his j (List.mem_cons_of_mem _ hj)
    by_cases hc : IsChild s d i
    · rw [List.filter_cons_of_pos (by simpa using hc), listLoop_child hc hn ht hname]
      have hent := listEntry_length hname
      by_cases hfull : n < text.length + (maxFilename + 3)
      · refine ⟨0, Nat.zero_le _, by simp [hfull, listing], by simpa [listing] using ht, fun hroom => ?_⟩
        rw [List.length_cons, Nat.mul_succ] at hroom
        omega
      · rw [if_neg hfull]
        obtain ⟨k, hk, hrun, hlt, hall⟩ := ih his' (text ++ listEntry (s.files i)) (count + 1)
          (by rw [List.length_append]; omega)
        refine ⟨k + 1, Nat.succ_le_succ hk, ?_, ?_, fun hroom => ?_⟩
        · rw [hrun, List.append_assoc, Nat.add_assoc, Nat.add_comm 1 k, listEntry_eq]
          rfl
        · rw [List.append_assoc, listEntry_eq] at hlt
          exact hlt
        · rw [List.length_cons, Nat.mul_succ] at hroom
          rw [List.length_cons, hall (by rw [List.length_append]; omega)]
    · rw [List.filter_cons_of_neg (by simpa using hc), listLoop_skip hc]
      exact ih his' text count ht

/-! ### The call -/

/-- The call on a directory runs the loop and terminates the text. -/
theorem fsListDir_of_dir (hp : fsParsePath s path = .ok (d : Int)) (hd : d < maxFiles)
    (hdir : (s.files d).type = .dir) {text : List Byte} {k : ℕ}
    (hrun : listLoop s d n (List.range s.fileCount) [] 0 = .ok (text, k)) (ht : text.length < n) :
    fsListDir s path n = .ok ((k : Int), text) := by
  have hok : ¬ ((d : Int) < 0 ∨ (d : Int) ≥ maxFiles ∨ (s.files (d : Int).toNat).type ≠ .dir) := by
    rw [Int.toNat_natCast]
    simp only [hdir, ne_eq, not_true, or_false]
    omega
  rw [fsListDir, hp, Except.bind, if_neg hok, Int.toNat_natCast, hrun]
  simp only [Except.bind, fit_of_lt ht]

theorem children_length_le (s : FS) (d : ℕ) : (children s d).length ≤ maxFiles :=
  (List.length_filter_le _ _).trans (by rw [List.length_range]; exact s.count_le)

/-- The children are the entries that a further component leads to. -/
theorem children_names (hI : FsInv s) (h0 : (0 : Byte) ∉ path) (hp : Resolves s path d)
    (c : CString) (hne : c.val ≠ []) (hsl : slash ∉ c.val) :
    (∃ i, Resolves s (path ++ slash :: c.val) i) ↔ c.val ∈ (children s d).map fun i => (s.files i).nameStr := by
  have hw : ∀ i, Resolves s (path ++ slash :: c.val) i ↔ s.table.child d c.val = some i := by
    intro i
    rw [resolves_iff hI.names (nul_not_mem_join h0 c.noNul), components_join, walk_append,
      (resolves_iff hI.names h0).mp hp, Option.bind_some, components_word hsl hne, walk_singleton]
  simp only [hw, List.mem_map, children, List.mem_filter, List.mem_range, decide_eq_true_eq]
  constructor
  · rintro ⟨i, hi⟩
    obtain ⟨hlt, hpar, hlab⟩ := child_some hi
    -- the root has no name, so it is not the entry found
    refine ⟨i, ⟨hlt, ?_, hpar⟩, hlab⟩
    rintro rfl
    rw [table_label, hI.rootName] at hlab
    exact hne hlab.symm
  · rintro ⟨i, ⟨hlt, -, hpar⟩, hlab⟩
    by_contra hno
    have hnone : s.table.child d c.val = none := by
      cases hc : s.table.child d c.val with
      | none => rfl
      | some j => exact absurd ⟨j, hc⟩ hno
    exact child_eq_none.mp hnone i hlt ⟨hpar, hlab⟩

/-- **Directory listing**, in every state that building calls reach and for every path that resolves to a
directory: into a buffer of `n` bytes the call writes the lines of a prefix of the children and a
terminator, and returns the length of the prefix; the buffer of the shell takes all the children, whose
names are those with which the path can be continued. -/
theorem list_dir_exact (hs : Built s) (p : CString) (hp : Resolves s p.val d) (hdir : (s.files d).type = .dir) :
    (∀ n, 1 ≤ n → n < 2 ^ 32 → ∃ k ≤ (children s d).length, ∃ text,
      fsListDir s p.val n = .ok ((k : Int), text) ∧ text = listing s ((children s d).take k) ∧
        text.length + 1 ≤ n) ∧
    fsListDir s p.val (maxFiles * (maxFilename + 2)) =
      .ok (((children s d).length : Int), listing s (children s d)) ∧
    ∀ c : CString, c.val ≠ [] → slash ∉ c.val →
      ((∃ i, Resolves s (p.val ++ slash :: c.val) i) ↔
        c.val ∈ (children s d).map fun i => (s.files i).nameStr) := by
  have hI := hs.inv.1
  have hd : d < maxFiles := lt_of_lt_of_le (hp.lt p.noNul hI.count_pos) s.count_le
  have hnames : ∀ i ∈ List.range s.fileCount, (s.files i).nameStr.length < maxFilename :=
    fun i hi => length_cstr_lt (hI.names i (List.mem_range.mp hi))
  refine ⟨fun n h1 hn => ?_, ?_, fun c hne hsl => children_names hI p.noNul hp c hne hsl⟩
  · obtain ⟨k, hk, hrun, hlt, -⟩ := listLoop_spec (d := d) hn hnames [] 0 h1
    rw [Nat.zero_add] at hrun
    exact ⟨k, hk, _, fsListDir_of_dir hp hd hdir hrun hlt, rfl, hlt⟩
  · obtain ⟨k, -, hrun, hlt, hall⟩ := listLoop_spec (s := s) (d := d) (n := maxFiles * (maxFilename + 2))
      (by decide) hnames [] 0 (by decide)
    have hk := hall (by
      have := children_length_le s d
      simp only [children, maxFiles, maxFilename] at this ⊢
      simp only [List.length_nil]
      omega)
    rw [Nat.zero_add] at hrun
    have hrun' := fsListDir_of_dir hp hd hdir hrun hlt
    rw [hk, List.nil_append, List.take_length] at hrun'
    exact hrun'

theorem list_dir_exact_sample : ∃ s, Built s ∧ children s 1 = [2, 3] ∧
    fsListDir s (str "/d") (maxFiles * (maxFilename + 2)) = .ok (2, str "f\ng/\n") := by
  have h : ((fsRun (fsInit zeroFiles)
      [.mkdir (lit "/d"), .create (lit "/d/f"), .mkdir (lit "/d/g")]).bind fun s =>
      .ok (fsParsePath s (str "/d"), (s.files 1).type, children s 1, listing s (children s 1))) =
      .ok (.ok 1, .dir, [2, 3], str "f\ng/\n") := by
    decide +kernel
  obtain ⟨s, hrun, h⟩ := bind_ok_iff.mp h
  simp only [Except.ok.injEq, Prod.mk.injEq] at h
  obtain ⟨hp, hdir, hch, htext⟩ := h
  have hs : Built s := ⟨zeroFiles, _, by decide, hrun⟩
  have hlist := (list_dir_exact hs (lit "/d") hp hdir).2.1
  rw [htext, hch] at hlist
  exact ⟨s, hs, hch, hlist⟩

end FoxOS
