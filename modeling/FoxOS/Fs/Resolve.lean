import FoxOS.Fs.Create

/-!
# FoxOS.Fs.Resolve — resolution as a fold, and what creation makes of relative paths

`resolveFrom` says what a path means: from a slot, each component selects the lowest live slot under
the current one that has its name.  `parse_path_fold` proves that `fs_parse_path` is that fold, so slashes
only separate and a joined path is resolved in two steps.

`fs_mkdir` and `fs_create` cut their path at the last slash.  Without a slash the cut is at the first byte,
which is lost, and the entry made is not the one the path resolves to (`relative_create_iff`).
-/

namespace FoxOS

open Segs ParentTable

variable {s : FS} {path : List Byte} {t : FileType}

/-! ### The fold -/

/-- The lowest live slot under `d` with the name `c`. -/
def lowestEntry (s : FS) (d : ℕ) (c : List Byte) : Option ℕ :=
  (List.range s.fileCount).find? fun i => decide ((s.files i).parentIndex = d ∧ (s.files i).nameStr = c)

/-- The slot that the components `cs` lead to from slot `d`; nothing once a component is missing. -/
def resolveFrom (s : FS) (d : ℕ) (cs : List (List Byte)) : Option ℕ :=
  cs.foldl (fun o c => o.bind fun i => lowestEntry s i c) (some d)

theorem resolveFrom_eq_walk (s : FS) (d : ℕ) (cs : List (List Byte)) : resolveFrom s d cs = s.table.walk d cs :=
  (walk_eq_foldl (T := s.table) cs d).symm

/-- Resolution sees the components only. -/
theorem fsParsePath_congr (s : FS) {p q : List Byte} (hp : (0 : Byte) ∉ p) (hq : (0 : Byte) ∉ q)
    (h : components p = components q) : fsParsePath s p = fsParsePath s q := by
  rw [fsParsePath_eq s hp, fsParsePath_eq s hq, h]

theorem nul_not_mem_slashes (k : ℕ) : (0 : Byte) ∉ List.replicate k slash :=
  fun h => absurd (List.eq_of_mem_replicate h) (by decide)

/-- **`fs_parse_path` is a fold over the components**, for every file table and every path whose
components fit; leading, trailing and repeated slashes make no difference, and a joined path continues
from the slot of its first part. -/
theorem parse_path_fold (s : FS) (p : CString) (hp : PathFits p.val) :
    fsParsePath s p.val = .ok (code (resolveFrom s 0 (components p.val))) ∧
    (∀ k, fsParsePath s (List.replicate k slash ++ p.val) = fsParsePath s p.val) ∧
    (∀ k, fsParsePath s (p.val ++ List.replicate k slash) = fsParsePath s p.val) ∧
    (∀ a b k, p.val = a ++ slash :: b →
      fsParsePath s (a ++ (List.replicate (k + 1) slash ++ b)) = fsParsePath s p.val) ∧
    (∀ q : CString, PathFits q.val → fsParsePath s (p.val ++ slash :: q.val) =
      .ok (code ((resolveFrom s 0 (components p.val)).bind fun d => resolveFrom s d (components q.val)))) := by
  have h0 := p.noNul
  refine ⟨?_, fun k => ?_, fun k => ?_, ?_, fun q hq => ?_⟩
  · rw [fsParsePath_of_fits s h0 hp, resolveFrom_eq_walk]
  · apply fsParsePath_congr s _ h0 (segs_replicate_append k p.val)
    exact List.not_mem_append (nul_not_mem_slashes k) h0
  · apply fsParsePath_congr s _ h0 (segs_append_seps p.val k)
    exact List.not_mem_append h0 (nul_not_mem_slashes k)
  · intro a b k hab
    rw [hab] at h0 ⊢
    have ha : (0 : Byte) ∉ a := fun h => h0 (List.mem_append_left _ h)
    have hb : (0 : Byte) ∉ b := fun h => h0 (List.mem_append_right _ (List.mem_cons_of_mem _ h))
    apply fsParsePath_congr s _ h0 ((segs_append_replicate k a b).trans (segs_append_sep a b).symm)
    exact List.not_mem_append ha (List.not_mem_append (nul_not_mem_slashes (k + 1)) hb)
  · have hfit : PathFits (p.val ++ slash :: q.val) := by
      intro c hc
      rw [components_join] at hc
      exact (List.mem_append.mp hc).elim (hp c) (hq c)
    rw [fsParsePath_of_fits s (nul_not_mem_join h0 q.noNul) hfit, components_join, walk_append]
    simp only [resolveFrom_eq_walk]

/-- A table with the entries `/a`, `/a/b` and `/a/b/c`. -/
theorem parse_path_fold_sample : ∃ s₁ s₂ s₃, fsMkdir (fsInit zeroFiles) (str "/a") = .ok (1, s₁) ∧
    fsMkdir s₁ (str "/a/b") = .ok (2, s₂) ∧ fsMkdir s₂ (str "/a/b/c") = .ok (3, s₃) ∧
    fsParsePath s₃ (str "/a/b") = .ok 2 ∧ fsParsePath s₃ (str "///a/b") = .ok 2 ∧
    fsParsePath s₃ (str "/a/b//") = .ok 2 ∧ fsParsePath s₃ (str "/a///b") = .ok 2 ∧
    fsParsePath s₃ (str "/a/b/c") = .ok 3 := by
  have h : ((fsMkdir (fsInit zeroFiles) (str "/a")).bind fun x => (fsMkdir x.2 (str "/a/b")).bind fun y =>
      (fsMkdir y.2 (str "/a/b/c")).bind fun z =>
        .ok (x.1, y.1, z.1, code (resolveFrom z.2 0 (components (str "/a/b"))),
        code ((resolveFrom z.2 0 (components (str "/a/b"))).bind fun d => resolveFrom z.2 d
          (components (str "c"))))) =
      .ok (1, 2, 3, 2, 3) := by
    decide +kernel
  obtain ⟨⟨_, s₁⟩, h1, h⟩ := bind_ok_iff.mp h
  obtain ⟨⟨_, s₂⟩, h2, h⟩ := bind_ok_iff.mp h
  obtain ⟨⟨_, s₃⟩, h3, h⟩ := bind_ok_iff.mp h
  simp only [Except.ok.injEq, Prod.mk.injEq] at h
  obtain ⟨rfl, rfl, rfl, hb, hc⟩ := h
  obtain ⟨hfold, hfront, hback, hmid, hjoin⟩ := parse_path_fold s₃ (lit "/a/b") (by decide +kernel)
  have hab : fsParsePath s₃ (str "/a/b") = .ok 2 := hfold.trans (congrArg Except.ok hb)
  exact ⟨s₁, s₂, s₃, h1, h2, h3, hab, (hfront 2).trans hab, (hback 2).trans hab,
    (hmid (str "/a") (str "b") 2 rfl).trans hab,
      (hjoin (lit "c") (by decide +kernel)).trans (congrArg Except.ok hc)⟩

/-! ### Relative paths -/

/-- The entry that a successful creation of `path` made is the one `path` resolves to. -/
def CreateFinds (t : FileType) (s : FS) (path : List Byte) : Prop :=
  ∃ r s', createAt t s path = .ok (r, s') ∧ (0 ≤ r → fsParsePath s' path = .ok r)

/-- A path with a slash is created where it resolves. -/
theorem createFinds_of_slash (hI : FsInv s) (h0 : (0 : Byte) ∉ path) (hsl : slash ∈ path)
    (hlen : path.length < maxFilename * 2) (hfit : PathFits path) : CreateFinds t s path := by
  obtain ⟨r, s', h⟩ := createAt_total_of_slash t s h0 hsl hlen hfit
  refine ⟨r, s', h, fun hr => ?_⟩
  rcases createAt_ok h0 h with ⟨rfl, -⟩ | ⟨p, hc, hw, hne, hl, rfl, rfl⟩
  · exact absurd hr (by decide)
  · exact (resolves_created hI hc hw (nul_not_mem_namePart h0) (slash_not_mem_namePart path) hl h0).mpr
      (Or.inr ⟨rfl, components_split hsl hne⟩)

section NoSlash

variable (hsl : slash ∉ path)

include hsl

theorem dirPart_of_no_slash : dirPart path = [] := by
  rw [dirPart, lastSlash, lastSlashLoop_of_not_mem hsl, List.take_zero]

theorem namePart_of_no_slash : namePart path = path.tail := by
  rw [namePart, lastSlash, lastSlashLoop_of_not_mem hsl, List.drop_one]

/-- Without a slash the call makes the path without its first byte in the root. -/
theorem createAt_of_no_slash (h0 : (0 : Byte) ∉ path) (hne : path.tail ≠ []) (hfit : PathFits path) :
    createAt t s path = fsCreateFile s path.tail t 0 := by
  have hpne : path ≠ [] := by rintro rfl; exact hne rfl
  have hd := dirPart_of_no_slash hsl
  have hn := namePart_of_no_slash hsl
  have hlen : path.length < maxFilename := hfit path (by rw [components_word hsl hpne]; simp)
  have hfd : PathFits (dirPart path) := by rw [hd]; intro c hc; simp [components] at hc
  rw [createAt_of_fits h0 hpne (by rw [hd]; decide) (by rw [hn, List.length_tail]; omega) hfd (by rwa [hn]),
    hd, hn]
  simp [components]

/-- The new entry is not found under the path it was made with. -/
theorem not_createFinds_of_no_slash (hI : FsInv s) (h0 : (0 : Byte) ∉ path) (hfit : PathFits path)
    (hc : CanCreate s path.tail 0) (hne : path.tail ≠ []) : ¬ CreateFinds t s path := by
  rintro ⟨r, s', h, hfind⟩
  have hpne : path ≠ [] := by rintro rfl; exact hne rfl
  have h0t : (0 : Byte) ∉ path.tail := fun h => h0 (List.mem_of_mem_tail h)
  have hlen : path.tail.length < maxFilename := by
    have := hfit path (by rw [components_word hsl hpne]; simp)
    rw [List.length_tail]
    omega
  rw [createAt_of_no_slash hsl h0 hne hfit, fsCreateFile_of_can h0t hc hlen] at h
  cases h
  have hres := (resolves_created hI hc (d := []) (by simp [components]) h0t
    (fun h => hsl (List.mem_of_mem_tail h)) hlen h0).mp (hfind (by omega))
  rcases hres with hold | ⟨-, hcomp⟩
  · exact absurd (hold.lt h0 hI.count_pos) (by omega)
  · -- the only component of the path is the path, one byte longer than the name made
    rw [components_word hsl hpne] at hcomp
    simp only [components, segs_nil, List.nil_append, List.cons.injEq, and_true] at hcomp
    have hl := congrArg List.length hcomp
    have := List.length_pos_iff.mpr hpne
    rw [List.length_tail] at hl
    omega

/-- Without a slash the path is found only when nothing was made. -/
theorem createFinds_iff_of_no_slash (hI : FsInv s) (h0 : (0 : Byte) ∉ path) (hpne : path ≠ [])
    (hfit : PathFits path) :
    CreateFinds t s path ↔ s.fileCount = maxFiles ∨
      ∃ i < s.fileCount, (s.files i).parentIndex = 0 ∧ (s.files i).nameStr = path.tail := by
  have h0t : (0 : Byte) ∉ path.tail := fun h => h0 (List.mem_of_mem_tail h)
  by_cases hne : path.tail = []
  · -- nothing is left of the name; the root slot has this name in itself
    have hfail : createAt t s path = .ok (-1, s) := createAt_of_empty_name hpne
      (by rw [dirPart_of_no_slash hsl]; decide) (by rw [namePart_of_no_slash hsl, hne])
    refine iff_of_true ⟨-1, s, hfail, fun h => absurd h (by decide)⟩
      (Or.inr ⟨0, hI.count_pos, hI.tree.root, ?_⟩)
    rw [hI.rootName, hne]
  · by_cases hc : CanCreate s path.tail 0
    · refine iff_of_false (not_createFinds_of_no_slash hsl hI h0 hfit hc hne) ?_
      rintro (hfull | ⟨i, hi, hp, hn⟩)
      · exact absurd hc.room (by omega)
      · exact child_eq_none.mp hc.fresh i hi ⟨hp, hn⟩
    · refine iff_of_true ⟨-1, s, ?_, fun h => absurd h (by decide)⟩ ?_
      · rw [createAt_of_no_slash hsl h0 hne hfit, fsCreateFile_of_not h0t hc]
      · -- the root is a directory, so only the room or the name can be missing
        by_contra hno
        push Not at hno
        obtain ⟨hroom, hfresh⟩ := hno
        exact hc ⟨lt_of_le_of_ne s.count_le hroom, by decide, hI.rootDir,
          child_eq_none.mpr fun i hi h => hfresh i hi h.1 h.2⟩

end NoSlash

/-- **Creation and resolution on root-relative paths**: for `fs_mkdir` and `fs_create`, in every state that
building calls reach, a path that does not start with a slash is found where it was made exactly when it
has a slash at all, or nothing could be made: the table is full or the root has an entry with the name that
is left of the path without its first byte. -/
theorem relative_create_iff (hs : Built s) (path : CString) (hne : path.val ≠ [])
    (_hrel : path.val.head? ≠ some slash) (hlen : path.val.length < maxFilename * 2)
    (hfit : PathFits path.val) :
    ((∃ r s', fsMkdir s path.val = .ok (r, s') ∧ (0 ≤ r → fsParsePath s' path.val = .ok r)) ∧
      (∃ r s', fsCreate s path.val = .ok (r, s') ∧ (0 ≤ r → fsParsePath s' path.val = .ok r))) ↔
    slash ∈ path.val ∨ s.fileCount = maxFiles ∨
      ∃ i < s.fileCount, (s.files i).parentIndex = 0 ∧ (s.files i).nameStr = path.val.tail := by
  have hI := hs.inv.1
  change CreateFinds .dir s path.val ∧ CreateFinds .file s path.val ↔ _
  by_cases hsl : slash ∈ path.val
  · exact iff_of_true ⟨createFinds_of_slash hI path.noNul hsl hlen hfit,
      createFinds_of_slash hI path.noNul hsl hlen hfit⟩ (Or.inl hsl)
  · rw [createFinds_iff_of_no_slash hsl hI path.noNul hne hfit,
      createFinds_iff_of_no_slash hsl hI path.noNul hne hfit, and_self, or_iff_right hsl]

theorem relative_create_iff_sample : ∃ s s', Built s ∧ fsMkdir s (str "a/b") = .ok (2, s') ∧
    fsParsePath s' (str "a/b") = .ok 2 := by
  have h : ((fsRun (fsInit zeroFiles) [.mkdir (lit "/a")]).bind fun s =>
      (fsMkdir s (str "a/b")).bind fun x => .ok x.1) = .ok 2 := by
    decide +kernel
  obtain ⟨s, hrun, h⟩ := bind_ok_iff.mp h
  obtain ⟨x, hx, h⟩ := bind_ok_iff.mp h
  have hs : Built s := ⟨zeroFiles, _, by decide, hrun⟩
  obtain ⟨⟨r, s', hr, hfind⟩, -⟩ := (relative_create_iff hs (lit "a/b") (by decide) (by decide) (by decide)
    (by decide +kernel)).mpr (Or.inl (by decide))
  obtain rfl : x = (r, s') := Except.ok.inj (hx.symm.trans hr)
  obtain rfl : r = 2 := Except.ok.inj h
  exact ⟨s, s', hs, hr, hfind (by decide)⟩

/-- `fs_create("abc")` makes `/bc`: the path itself is not found afterwards. -/
theorem create_loses_first_byte : ∃ s', fsCreate (fsInit zeroFiles) (str "abc") = .ok (1, s') ∧
    fsParsePath s' (str "abc") = .ok (-1) ∧ fsParsePath s' (str "/bc") = .ok 1 := by
  have h : ((fsCreate (fsInit zeroFiles) (str "abc")).bind fun x =>
      .ok (x.1, fsParsePath x.2 (str "abc"), fsParsePath x.2 (str "/bc"))) = .ok (1, .ok (-1), .ok 1) := by
    decide +kernel
  obtain ⟨x, hx, h⟩ := bind_ok_iff.mp h
  simp only [Except.ok.injEq, Prod.mk.injEq] at h
  obtain ⟨h1, h2, h3⟩ := h
  exact ⟨x.2, by rw [hx, ← h1], h2, h3⟩

end FoxOS
