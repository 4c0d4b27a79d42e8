import FoxOS.Fs.Resolve
import FoxOS.Term.Cwd

/-!
# FoxOS.Term.Cd — `cd` composes

`cdTo` is the code of `cd` behind `parse_args` (`cdCommand_eq`).  `build_path` joins strings and looks at one
byte of `current_dir` to decide about a slash, so the strings that two `cd` commands and one joined `cd` leave
can differ; what they have in common are their components (`components_fullPath`), and resolution sees nothing
else.
-/

namespace FoxOS

open Segs ParentTable

variable {fs : FS} {dir dir' a b : List Byte}

/-- The code of `cd` behind `parse_args`: the new `current_dir`, or nothing when no directory is found. -/
def cdTo (fs : FS) (dir arg1 : List Byte) : Except Fault (Option (List Byte)) :=
  (buildPath dir arg1).bind fun fullPath =>
    (fsGetFile fs fullPath).bind fun found =>
      if found.any (fun i => decide ((fs.files i).type = .dir)) then
        (fit .currentDir (maxFilename * 2) fullPath).bind fun fullPath => .ok (some fullPath)
      else .ok none

/-- **The command** goes to the root without an argument; otherwise it stores the directory found or replies. -/
theorem cdCommand_eq (s : Sys) (line : List Byte) :
    cdCommand s line = (parseArgs line).bind fun args =>
      if args.1 = [] then .ok (s.withDir (str "/"))
      else (cdTo s.fs s.term.currentDir args.1).bind fun found =>
        found.elim (s.printf (str "Error: Directory not found\n") []) fun dir => .ok (s.withDir dir) := by
  unfold cdCommand
  generalize s.printf (str "Error: Directory not found\n") [] = reply
  cases parseArgs line with
  | error e => rfl
  | ok args =>
    simp only [Except.bind, cdTo]
    by_cases hne : args.1 = []
    · rw [if_pos hne, if_pos hne]
    rw [if_neg hne, if_neg hne]
    cases buildPath s.term.currentDir args.1 with
    | error e => rfl
    | ok full =>
      simp only
      cases fsGetFile s.fs full with
      | error e => rfl
      | ok found =>
        simp only
        by_cases hdir : found.any (fun i => decide ((s.fs.files i).type = .dir)) = true
        · rw [if_pos hdir, if_pos hdir]
          cases fit Buffer.currentDir (maxFilename * 2) full with
          | error e => rfl
          | ok d => rfl
        · rw [if_neg hdir, if_neg hdir]
          rfl

/-! ### Built paths and their components -/

/-- Behind a directory that starts with a slash, a relative path adds its components. -/
theorem components_fullPath (hdir : dir.head? = some slash) (hb : b.head? ≠ some slash) :
    components (fullPathOf dir b) = components dir ++ components b := by
  rw [fullPathOf, if_neg hb]
  by_cases hlen : 1 < dir.length
  · rw [if_pos hlen, List.append_assoc, List.singleton_append, components_join]
  · -- the directory is the root
    obtain ⟨t, rfl⟩ := List.head?_eq_some_iff.mp hdir
    have ht : t = [] := List.eq_nil_of_length_eq_zero (by rw [List.length_cons] at hlen; omega)
    subst ht
    simp [components]

theorem head_fullPath (hdir : dir.head? = some slash) : (fullPathOf dir a).head? = some slash := by
  unfold fullPathOf
  by_cases ha : a.head? = some slash
  · rwa [if_pos ha]
  · rw [if_neg ha, List.append_assoc, List.head?_append, hdir]
    rfl

/-- A path joined in one string or in two steps has the same components. -/
theorem components_two_steps (hdir : dir.head? = some slash) (ha : a ≠ []) (hb : b.head? ≠ some slash) :
    components (fullPathOf (fullPathOf dir a) b) = components (fullPathOf dir (a ++ slash :: b)) := by
  rw [components_fullPath (head_fullPath hdir) hb]
  have hhead : (a ++ slash :: b).head? = a.head? := by
    cases a with
    | nil => exact absurd rfl ha
    | cons c t => rfl
  by_cases habs : a.head? = some slash
  · rw [fullPathOf, if_pos habs, fullPathOf, if_pos (hhead.trans habs), components_join]
  · rw [components_fullPath hdir habs, components_fullPath hdir (by rwa [hhead]), components_join,
      List.append_assoc]

/-- Directories with the same components give every relative path the same components. -/
theorem components_fullPath_congr (hdir : dir.head? = some slash) (hdir' : dir'.head? = some slash)
    (h : components dir = components dir') (c : List Byte) :
    components (fullPathOf dir c) = components (fullPathOf dir' c) := by
  by_cases hc : c.head? = some slash
  · rw [fullPathOf, if_pos hc, fullPathOf, if_pos hc]
  · rw [components_fullPath hdir hc, components_fullPath hdir' hc, h]

/-! ### `cd` -/

/-- `cd` on a path that fits stores the built path when it leads to a directory. -/
theorem cdTo_of_fits (h0 : (0 : Byte) ∉ fullPathOf dir a) (hlen : (fullPathOf dir a).length < maxFilename * 2)
    (hfit : PathFits (fullPathOf dir a)) :
    cdTo fs dir a = .ok (if (fs.table.walk 0 (components (fullPathOf dir a))).any
      (fun i => decide ((fs.files i).type = .dir)) then some (fullPathOf dir a) else none) := by
  rw [cdTo, buildPath, fit_of_lt hlen, Except.bind, fsGetFile_of_fits fs h0 hfit, Except.bind]
  by_cases hdir : (fs.table.walk 0 (components (fullPathOf dir a))).any
      (fun i => decide ((fs.files i).type = .dir)) = true
  · rw [if_pos hdir, if_pos hdir, fit_of_lt hlen, Except.bind]
  · rw [if_neg hdir, if_neg hdir]

theorem cdTo_some (h : cdTo fs dir a = .ok (some dir')) : dir' = fullPathOf dir a := by
  obtain ⟨full, hb, h1⟩ := bind_ok_iff.mp h
  obtain ⟨-, rfl⟩ := fit_eq_ok.mp hb
  obtain ⟨found, -, h2⟩ := bind_ok_iff.mp h1
  by_cases hdir : found.any (fun i => decide ((fs.files i).type = .dir)) = true
  · rw [if_pos hdir] at h2
    obtain ⟨d, hf, h3⟩ := bind_ok_iff.mp h2
    obtain ⟨-, rfl⟩ := fit_eq_ok.mp hf
    exact (Option.some.inj (Except.ok.inj h3)).symm
  · rw [if_neg hdir] at h2
    cases h2

/-- **`cd` composes**, in every file table and from every directory that starts with a slash, as long as the
built paths fit: after `cd a`, `cd b` succeeds exactly when `cd a/b` succeeds from the first directory, and then
the two directories lead to the same entry and every further path built from them to the same result. -/
theorem cd_composes (fs : FS) (dir a b dirA : CString) (hdir : dir.val.head? = some slash) (ha : a.val ≠ [])
    (_hb : b.val ≠ []) (hrel : b.val.head? ≠ some slash) (hcd : cdTo fs dir.val a.val = .ok (some dirA.val))
    (hstep : (fullPathOf dirA.val b.val).length < maxFilename * 2)
    (hjoin : (fullPathOf dir.val (a.val ++ slash :: b.val)).length < maxFilename * 2)
    (hfit : PathFits (fullPathOf dir.val (a.val ++ slash :: b.val))) :
    ∃ o o', cdTo fs dirA.val b.val = .ok o ∧ cdTo fs dir.val (a.val ++ slash :: b.val) = .ok o' ∧
      (o.isSome ↔ o'.isSome) ∧
      ∀ dirB dirB', o = some dirB → o' = some dirB' →
        (∃ i, Resolves fs dirB i ∧ Resolves fs dirB' i) ∧
        ∀ (c : CString) full full', buildPath dirB c.val = .ok full → buildPath dirB' c.val = .ok full' →
          fsParsePath fs full = fsParsePath fs full' := by
  have hA := cdTo_some hcd
  have hcomp : components (fullPathOf dirA.val b.val) = components
      (fullPathOf dir.val (a.val ++ slash :: b.val)) := by
    rw [hA]
    exact components_two_steps hdir ha hrel
  have hheadA : dirA.val.head? = some slash := by rw [hA]; exact head_fullPath hdir
  have h0 := nul_not_mem_fullPathOf dirA.noNul b.noNul
  have h0j : (0 : Byte) ∉ fullPathOf dir.val (a.val ++ slash :: b.val) :=
    nul_not_mem_fullPathOf dir.noNul (nul_not_mem_join a.noNul b.noNul)
  have hfitA : PathFits (fullPathOf dirA.val b.val) := by
    unfold PathFits
    rw [hcomp]
    exact hfit
  refine ⟨_, _, cdTo_of_fits h0 hstep hfitA, cdTo_of_fits h0j hjoin hfit, ?_, ?_⟩
  · rw [hcomp]
    split_ifs <;> simp
  · intro dirB dirB' hB hB'
    obtain ⟨hfound, hB⟩ := Option.ite_none_right_eq_some.mp hB
    obtain ⟨-, hB'⟩ := Option.ite_none_right_eq_some.mp hB'
    cases hB
    cases hB'
    refine ⟨?_, fun c full full' hc hc' => ?_⟩
    · obtain ⟨i, hi, -⟩ := Option.any_eq_true _ _ |>.mp hfound
      refine ⟨i, ?_, ?_⟩
      · rw [Resolves, fsParsePath_of_fits fs h0 hfitA, hi, code_some]
      · rw [Resolves, fsParsePath_of_fits fs h0j hfit, ← hcomp, hi, code_some]
    · obtain ⟨-, rfl⟩ := fit_eq_ok.mp hc
      obtain ⟨-, rfl⟩ := fit_eq_ok.mp hc'
      apply fsParsePath_congr fs (nul_not_mem_fullPathOf h0 c.noNul) (nul_not_mem_fullPathOf h0j c.noNul)
      exact components_fullPath_congr (head_fullPath hheadA) (head_fullPath hdir) hcomp c.val

/-- From `/a`, first `cd b/c` and then `cd d`, or `cd b/c/d` at once. -/
theorem cd_composes_sample : ∃ fs dirB', cdTo fs (str "/a") (str "b/c") = .ok (some (str "/a/b/c")) ∧
    cdTo fs (str "/a/b/c") (str "d") = .ok (some (str "/a/b/c/d")) ∧
    cdTo fs (str "/a") (str "b/c/d") = .ok (some dirB') ∧
    ∃ i, Resolves fs (str "/a/b/c/d") i ∧ Resolves fs dirB' i := by
  have h : ((fsMkdir (fsInit zeroFiles) (str "/a")).bind fun x => (fsMkdir x.2 (str "/a/b")).bind fun x =>
      (fsMkdir x.2 (str "/a/b/c")).bind fun x => (fsMkdir x.2 (str "/a/b/c/d")).bind fun x =>
        .ok (cdTo x.2 (str "/a") (str "b/c"), cdTo x.2 (str "/a/b/c") (str "d"))) =
      .ok (.ok (some (str "/a/b/c")), .ok (some (str "/a/b/c/d"))) := by
    decide +kernel
  obtain ⟨x₁, -, h⟩ := bind_ok_iff.mp h
  obtain ⟨x₂, -, h⟩ := bind_ok_iff.mp h
  obtain ⟨x₃, -, h⟩ := bind_ok_iff.mp h
  obtain ⟨x, -, h⟩ := bind_ok_iff.mp h
  simp only [Except.ok.injEq, Prod.mk.injEq] at h
  obtain ⟨hcd, hd⟩ := h
  obtain ⟨o, o', h1, h2, h3, h4⟩ := cd_composes x.2 (lit "/a") (lit "b/c") (lit "d") (lit "/a/b/c")
    (by decide) (by decide) (by decide) (by decide) hcd (by decide) (by decide) (by decide +kernel)
  obtain rfl : o = some (str "/a/b/c/d") := Except.ok.inj (h1.symm.trans hd)
  obtain ⟨dirB', hB'⟩ := Option.isSome_iff_exists.mp (h3.mp rfl)
  exact ⟨x.2, dirB', hcd, hd, by rw [← hB']; exact h2, (h4 _ _ rfl hB').1⟩

end FoxOS
