import FoxOS.Fs.Inv

/-!
# FoxOS.Fs.Create — creation is exact and atomic

`CreateSpec` is what a caller of `fs_mkdir` or `fs_create` may rely on, in terms of path resolution only:
when the call succeeds, which slot it returns, which paths keep their meaning and which paths are new.
`create_exact` proves it for every state built from `fs_init`.
-/

namespace FoxOS

open Segs ParentTable

/-- What creating `path = d ++ '/' ++ n` as an entry of type `t` does: the result `r` and the state `s'`. -/
structure CreateSpec (t : FileType) (s : FS) (path d n : List Byte) (r : Int) (s' : FS) : Prop where
  succeeds : 0 ≤ r ↔ n ≠ [] ∧ s.fileCount < maxFiles ∧ ∃ p, Resolves s d p ∧ p < s.fileCount ∧
    (s.files p).type = .dir ∧
    ∀ i < s.fileCount, ¬ ((s.files i).parentIndex = p ∧ (s.files i).nameStr = n)
  result : 0 ≤ r → r = s.fileCount ∧ s'.fileCount = s.fileCount + 1 ∧ Resolves s' path s.fileCount
  entry : 0 ≤ r → (s'.files s.fileCount).type = t ∧ (s'.files s.fileCount).size = 0
  old : 0 ≤ r → ∀ (q : CString) i, Resolves s q.val i → Resolves s' q.val i ∧ s'.files i = s.files i
  new : 0 ≤ r → ∀ q : CString, ((∃ i, Resolves s' q.val i) ∧ ¬ ∃ i, Resolves s q.val i) ↔
    components q.val = components path
  failed : r < 0 → s' = s

variable {s : FS} {path d n : List Byte} {t : FileType} {p i : ℕ}

/-- Components are never the empty name of the root. -/
theorem components_ne_root (hI : FsInv s) : ∀ c ∈ components path, c ≠ s.table.label 0 := by
  intro c hc h
  rw [table_label, hI.rootName] at h
  exact (segs_spec hc).2.1 h

/-- **Resolution after an entry was appended**: the old slots, and the new one by its components. -/
theorem resolves_created (hI : FsInv s) (hc : CanCreate s n p)
    (hw : s.table.walk 0 (components d) = some p) (h0 : (0 : Byte) ∉ n) (hs : slash ∉ n)
    (hlen : n.length < maxFilename) {q : List Byte} (hq : (0 : Byte) ∉ q) :
    Resolves (created s n t p hc.room) q i ↔
      Resolves s q i ∨ (i = s.fileCount ∧ components q = components d ++ [n]) := by
  have hp : p < s.fileCount := hI.walk_lt hw
  have hI' : FsInv (created s n t p hc.room) := hI.created hc hp h0 hs hlen
  rw [resolves_iff hI'.names hq, resolves_iff hI.names hq, created_table h0 hlen,
    hI.tree.walk_grow hp hc.fresh hI.count_pos]
  refine or_congr_right (and_congr_right fun _ => ?_)
  constructor
  · rintro ⟨as, has, hwa⟩
    -- the labels before the new one lead to `p`, so they are the trail of `p`
    have has0 : ∀ c ∈ as, c ≠ s.table.label 0 :=
      fun c hcm => components_ne_root hI c (by rw [has]; exact List.mem_append_left _ hcm)
    rw [has, trail_of_walk hI.tree.parent_lt has0 hwa,
      trail_of_walk hI.tree.parent_lt (components_ne_root hI) hw]
  · intro h
    exact ⟨components d, h, hw⟩

/-- The components of a fresh entry did not resolve before. -/
theorem not_resolves_fresh (hI : FsInv s) (hc : CanCreate s n p)
    (hw : s.table.walk 0 (components d) = some p) {q : List Byte} (hq : (0 : Byte) ∉ q)
    (h : components q = components d ++ [n]) : ¬ ∃ i, Resolves s q i := by
  rintro ⟨i, hi⟩
  rw [resolves_iff hI.names hq, h, walk_append, hw, Option.bind_some, walk_singleton, hc.fresh] at hi
  cases hi

/-- A call that returned `-1` and left the state alone meets the specification when its condition fails. -/
theorem CreateSpec.of_failed
    (h : ¬ (n ≠ [] ∧ s.fileCount < maxFiles ∧ ∃ p, Resolves s d p ∧ p < s.fileCount ∧
      (s.files p).type = .dir ∧
      ∀ i < s.fileCount, ¬ ((s.files i).parentIndex = p ∧ (s.files i).nameStr = n))) :
    CreateSpec t s path d n (-1) s := by
  have hneg : ¬ (0 : Int) ≤ -1 := by decide
  exact ⟨⟨fun h' => absurd h' hneg, fun h' => absurd h' h⟩, fun h' => absurd h' hneg,
    fun h' => absurd h' hneg, fun h' => absurd h' hneg, fun h' => absurd h' hneg, fun _ => rfl⟩

/-- The state after the checks passed meets the specification. -/
theorem CreateSpec.of_created (hI : FsInv s) (hc : CanCreate s n p)
    (hw : s.table.walk 0 (components d) = some p) (h0p : (0 : Byte) ∉ path)
    (hpath : path = d ++ slash :: n) (hs : slash ∉ n) (hne : n ≠ []) (hlen : n.length < maxFilename) :
    CreateSpec t s path d n s.fileCount (created s n t p hc.room) := by
  have h0 : (0 : Byte) ∉ n := fun h => h0p (by rw [hpath]; simp [h])
  have h0d : (0 : Byte) ∉ d := fun h => h0p (by rw [hpath]; simp [h])
  have hcomp : components path = components d ++ [n] := by
    rw [hpath, components_join, components_word hs hne]
  have hp : p < s.fileCount := hI.walk_lt hw
  have hpos : (0 : Int) ≤ s.fileCount := by omega
  refine ⟨⟨fun _ => ⟨hne, hc.room, p, (resolves_iff hI.names h0d).mpr hw, hp, hc.dir, ?_⟩, fun _ => hpos⟩,
    fun _ => ⟨rfl, rfl, ?_⟩, fun _ => ?_, fun _ q i hq => ⟨?_, ?_⟩, fun _ q => ?_,
      fun h => absurd hpos (by omega)⟩
  · exact child_eq_none.mp hc.fresh
  · exact (resolves_created hI hc hw h0 hs hlen h0p).mpr (Or.inr ⟨rfl, hcomp⟩)
  · rw [created_files_last]
    exact ⟨rfl, rfl⟩
  · exact (resolves_created hI hc hw h0 hs hlen q.noNul).mpr (Or.inl hq)
  · exact created_files_of_ne (Nat.ne_of_lt (hq.lt q.noNul hI.count_pos))
  · simp only [resolves_created hI hc hw h0 hs hlen q.noNul, hcomp]
    constructor
    · rintro ⟨⟨i, hi | ⟨-, hq⟩⟩, hno⟩
      · exact absurd ⟨i, hi⟩ hno
      · exact hq
    · intro hq
      exact ⟨⟨s.fileCount, Or.inr ⟨rfl, hq⟩⟩, not_resolves_fresh hI hc hw q.noNul hq⟩

/-- The common body of the two calls meets the specification. -/
theorem createAt_spec (hI : FsInv s) (path : CString) (hp : AbsPath path.val)
    (hpath : path.val = d ++ slash :: n) (hn : slash ∉ n) :
    ∃ r s', createAt t s path.val = .ok (r, s') ∧ CreateSpec t s path.val d n r s' := by
  obtain ⟨hd, hnm⟩ := parts_of_split (a := d) hn
  rw [← hpath] at hd hnm
  have hsl := hp.slash_mem
  have hpne : path.val ≠ [] := by rw [hpath]; simp
  have hdl : (dirPart path.val).length < maxFilename * 2 := lt_of_le_of_lt (dirPart_length _) hp.2.1
  have hnl := namePart_fits hsl hp.2.2
  have h0d := nul_not_mem_dirPart path.noNul
  have h0n := nul_not_mem_namePart path.noNul
  by_cases hne : n = []
  · exact ⟨_, _, createAt_of_empty_name hpne hdl (hnm.trans hne), .of_failed (fun h => h.1 hne)⟩
  rw [createAt_of_fits path.noNul hpne hdl hnl (dirPart_fits hsl hp.2.2) (by rwa [hnm]), hd, hnm]
  rw [hnm] at hnl h0n
  rw [hd] at h0d
  cases hw : s.table.walk 0 (components d) with
  | none =>
    refine ⟨_, _, rfl, .of_failed ?_⟩
    rintro ⟨-, -, p, hres, -⟩
    rw [resolves_iff hI.names h0d, hw] at hres
    cases hres
  | some p =>
    by_cases hc : CanCreate s n p
    · exact ⟨_, _, fsCreateFile_of_can h0n hc hnl, .of_created hI hc hw path.noNul hpath hn hne hnl⟩
    · refine ⟨_, _, fsCreateFile_of_not h0n hc, .of_failed ?_⟩
      rintro ⟨-, hroom, p', hres, hlt, hdir, hfresh⟩
      rw [resolves_iff hI.names h0d, hw] at hres
      cases hres
      exact hc ⟨hroom, lt_of_lt_of_le hlt s.count_le, hdir, child_eq_none.mpr hfresh⟩

/-- **Creation is exact and atomic**, for `fs_mkdir` and `fs_create`, in every state that building calls
reach and for every absolute path `d ++ '/' ++ n` (`n` behind the last slash) that fits the buffers. -/
theorem create_exact (hs : Built s) (path : CString) (hp : AbsPath path.val)
    (hpath : path.val = d ++ slash :: n) (hn : slash ∉ n) :
    (∃ r s', fsMkdir s path.val = .ok (r, s') ∧ CreateSpec .dir s path.val d n r s') ∧
    (∃ r s', fsCreate s path.val = .ok (r, s') ∧ CreateSpec .file s path.val d n r s') :=
  ⟨createAt_spec hs.inv.1 path hp hpath hn, createAt_spec hs.inv.1 path hp hpath hn⟩

theorem create_exact_sample :
    (∃ r s', fsMkdir (fsInit zeroFiles) (str "//a") = .ok (r, s') ∧
      CreateSpec .dir (fsInit zeroFiles) (str "//a") (str "/") (str "a") r s') ∧
    (∃ r s', fsCreate (fsInit zeroFiles) (str "//a") = .ok (r, s') ∧
      CreateSpec .file (fsInit zeroFiles) (str "//a") (str "/") (str "a") r s') :=
  create_exact ⟨zeroFiles, [], by simp, rfl⟩ (lit "//a") (by decide +kernel) (by decide) (by decide)

end FoxOS
