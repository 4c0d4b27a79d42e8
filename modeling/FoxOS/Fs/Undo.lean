import FoxOS.Fs.Delete

/-!
# FoxOS.Fs.Undo — deleting in reverse order undoes creation

`Grown s ps t`: from `s`, the paths `ps` (the last one first) were created one after another, with writes to
the new files in between, and `t` is the state reached.  Deleting `ps` in this order takes the last slot
each time, where the shifting loop makes no round; `Shadow` is what stays known about the state on the
way down, and `reverse_delete` says that the table of `s` is back at the end.
-/

namespace FoxOS

open Segs ParentTable Runs

variable {s t u : FS} {ps : List CString}

/-- The states reached from `s` by creating the paths `ps`, the last one first, and by writing to slots
that are not live in `s`. -/
inductive Grown (s : FS) : List CString → FS → Prop
  | start : Grown s [] s
  | created {ps : List CString} {t t' : FS} {p : CString} {r : Int} :
      Grown s ps t → p.val.head? = some slash →
        (fsMkdir t p.val = .ok (r, t') ∨ fsCreate t p.val = .ok (r, t')) →
      0 ≤ r → Grown s (p :: ps) t'
  | written {ps : List CString} {t t' : FS} {q : CString} {data : List Byte} {r : Int} :
      Grown s ps t → fsWrite t q.val data = .ok (r, t') → (∀ i, Resolves t q.val i → s.fileCount ≤ i) →
      Grown s ps t'

/-- A successful creation: the slot, and the path that leads to it afterwards. -/
theorem created_of_call (hI : FsInv t) {p : CString} {r : Int} (hp : p.val.head? = some slash)
    (h : fsMkdir t p.val = .ok (r, u) ∨ fsCreate t p.val = .ok (r, u)) (hr : 0 ≤ r) :
    ∃ n type d, ∃ hc : CanCreate t n d, u = created t n type d hc.room ∧ FsInv u ∧
      Resolves u p.val t.fileCount := by
  obtain ⟨type, h1⟩ : ∃ type, createAt type t p.val = .ok (r, u) := by
    rcases h with h | h
    · exact ⟨.dir, h⟩
    · exact ⟨.file, h⟩
  rcases createAt_ok p.noNul h1 with ⟨rfl, -⟩ | ⟨d, hc, hw, hne, hlen, -, rfl⟩
  · omega
  have hsl : slash ∈ p.val := List.mem_of_mem_head? hp
  have h0 := nul_not_mem_namePart p.noNul
  have hs := slash_not_mem_namePart p.val
  refine ⟨_, type, d, hc, rfl, hI.created hc (hI.walk_lt hw) h0 hs hlen, ?_⟩
  exact (resolves_created hI hc hw h0 hs hlen p.noNul).mpr (Or.inr ⟨rfl, components_split hsl hne⟩)

theorem Grown.inv (h : Grown s ps t) (hI : FsInv s) : FsInv t ∧ s.fileCount ≤ t.fileCount := by
  induction h with
  | start => exact ⟨hI, Nat.le_refl _⟩
  | created _ hp hcall hr ih =>
    obtain ⟨n, type, d, hc, rfl, hI', -⟩ := created_of_call ih.1 hp hcall hr
    exact ⟨hI', Nat.le_succ_of_le ih.2⟩
  | @written ps t t' q data r _ hw _ ih =>
    rcases fsWrite_ok q.noNul hw with ⟨-, rfl⟩ | ⟨i, -, -, -, rfl⟩
    · exact ih
    · exact ⟨ih.1.write (writeSize_le _), ih.2⟩

/-- What is known about the state `u` when the creations that led to `t` are still to be undone: the live
tree is that of `t`, and the slots below `n` are untouched. -/
structure Shadow (n : ℕ) (t u : FS) : Prop where
  count : u.fileCount = t.fileCount
  tree : ∀ i < t.fileCount, (u.files i).name = (t.files i).name ∧ (u.files i).type = (t.files i).type ∧
    (u.files i).parentIndex = (t.files i).parentIndex
  old : ∀ i < n, u.files i = t.files i

theorem Shadow.table (h : Shadow s.fileCount t u) : u.table.Same t.table := by
  refine ⟨h.count, fun i hi => (h.tree i hi).2.2, fun i hi => ?_⟩
  rw [table_label, File.nameStr, (h.tree i hi).1]
  rfl

theorem Shadow.resolves (h : Shadow s.fileCount t u) (hI : FsInv t) {p : CString} {i : ℕ} :
    Resolves u p.val i ↔ Resolves t p.val i := by
  have hnames : NamesOk u := by
    intro i hi
    rw [h.count] at hi
    rw [(h.tree i hi).1]
    exact hI.names i hi
  rw [resolves_iff hnames p.noNul, resolves_iff hI.names p.noNul, h.table.walk]

/-- Deleting the last slot only lowers the count. -/
theorem deleted_last (h : u.fileCount = t.fileCount + 1) : (deleted u t.fileCount).files = u.files := by
  show shiftLoop u.fileCount (u.fileCount - 1 - t.fileCount) t.fileCount u.files = u.files
  rw [show u.fileCount - 1 - t.fileCount = 0 by omega]
  rfl

/-- **One deletion** of the slot that was created last. -/
theorem Shadow.delete {n : List Byte} {type : FileType} {d : ℕ} {hroom : t.fileCount < maxFiles} {p : CString}
    (h : Shadow s.fileCount (created t n type d hroom) u) (hI : FsInv t)
    (hI' : FsInv (created t n type d hroom)) (hle : s.fileCount ≤ t.fileCount)
    (hr : Resolves (created t n type d hroom) p.val t.fileCount) :
    ∃ u', fsStep u (.deleteFile p) = .ok (⟨0, []⟩, u') ∧ Shadow s.fileCount t u' := by
  have hcount : u.fileCount = t.fileCount + 1 := h.count
  have hold : ∀ i < t.fileCount, (created t n type d hroom).files i = t.files i :=
    fun i hi => created_files_of_ne (Nat.ne_of_lt hi)
  -- links lead to smaller slots, so nothing hangs on the last one
  have hleaf : Leaf u t.fileCount := by
    intro i hi
    rw [h.count] at hi
    rw [(h.tree i hi).2.2]
    have hle := hI'.tree.parent_le hi
    have hpos := hI.count_pos
    rcases Nat.lt_succ_iff_lt_or_eq.mp hi with hlt | rfl
    · rw [table_parent] at hle
      omega
    · have := hI'.tree.parent_lt t.fileCount hpos hi
      rw [table_parent] at this
      omega
  have hdel := fsDeleteFile_of_leaf hI.count_pos ((h.resolves hI').mpr hr) (fun _ => hleaf)
  refine ⟨deleted u t.fileCount, by rw [fsStep, hdel]; rfl, ?_⟩
  refine ⟨by show u.fileCount - 1 = t.fileCount; omega, ?_, ?_⟩
  · intro i hi
    rw [deleted_last hcount, ← hold i hi]
    exact h.tree i (Nat.lt_succ_of_lt hi)
  · intro i hi
    rw [deleted_last hcount, ← hold i (by omega)]
    exact h.old i hi

/-- Undoing all creations from a shadow of the state reached. -/
theorem Grown.undo (h : Grown s ps t) (hI : FsInv s) : ∀ u outs, Shadow s.fileCount t u →
    ∃ u', exec logNext (outs, u) (ps.map .deleteFile) =
      .ok (outs ++ List.replicate ps.length ⟨0, []⟩, u') ∧ Shadow s.fileCount s u' := by
  induction h with
  | start =>
    intro u outs hu
    exact ⟨u, by simp, hu⟩
  | @created ps t t' p r hg hp hcall hr ih =>
    intro u outs hu
    obtain ⟨hI₁, hle⟩ := hg.inv hI
    obtain ⟨n, type, d, hc, rfl, hI', hres⟩ := created_of_call hI₁ hp hcall hr
    obtain ⟨u₁, hstep, hu₁⟩ := hu.delete hI₁ hI' hle hres
    obtain ⟨u', hrun, hu'⟩ := ih u₁ (outs ++ [⟨0, []⟩]) hu₁
    refine ⟨u', ?_, hu'⟩
    have hnext : logNext (outs, u) (.deleteFile p) = .ok (outs ++ [⟨0, []⟩], u₁) := by
      rw [logNext, hstep]
      rfl
    rw [List.map_cons, exec_cons_ok hnext, hrun, List.append_assoc]
    rfl
  | @written ps t t' q data r hg hw hnew ih =>
    intro u outs hu
    -- the write only touched the contents of a new slot
    rcases fsWrite_ok q.noNul hw with ⟨-, rfl⟩ | ⟨i, hwalk, -, -, rfl⟩
    · exact ih u outs hu
    have hfr := setFile_write_frame t i data (writeSize data)
    have hi := hnew i ((resolves_iff (hg.inv hI).1.names q.noNul).mpr hwalk)
    refine ih u outs ⟨hu.count, ?_, ?_⟩
    · intro j hj
      rw [← (hfr j).1, ← (hfr j).2.1, ← (hfr j).2.2]
      exact hu.tree j hj
    · intro j hj
      rw [hu.old j hj, FS.setFile]
      exact Function.update_of_ne (by omega) _ _

/-- **Reverse-order deletion undoes creation exactly**: every call returns `0`, and the live slots are
those of the state before. -/
theorem reverse_delete (hs : Built s) (hg : Grown s ps t) :
    ∃ u, fsLog t (ps.map .deleteFile) = .ok (List.replicate ps.length ⟨0, []⟩, u) ∧
      u.fileCount = s.fileCount ∧ ∀ i < s.fileCount, u.files i = s.files i := by
  obtain ⟨u, hrun, hu⟩ := hg.undo hs.inv.1 t [] ⟨rfl, fun _ _ => ⟨rfl, rfl, rfl⟩, fun _ _ => rfl⟩
  exact ⟨u, hrun, hu.count, hu.old⟩

theorem reverse_delete_sample : ∃ t, Grown (fsInit zeroFiles)
      [lit "/a/b", lit "/a"] t ∧
    ∃ u, fsLog t ([lit "/a/b", lit "/a"].map .deleteFile) =
        .ok ([⟨0, []⟩, ⟨0, []⟩], u) ∧
      u.fileCount = 1 ∧ ∀ i < 1, u.files i = (fsInit zeroFiles).files i := by
  have hcalls : ((fsMkdir (fsInit zeroFiles) (str "/a")).bind fun x =>
      (fsCreate x.2 (str "/a/b")).bind fun y => (fsWrite y.2 (str "/a/b") [7]).bind fun z =>
        .ok (x.1, y.1, z.1, fsParsePath y.2 (str "/a/b"))) = .ok (1, 2, 1, .ok 2) := by
    decide +kernel
  obtain ⟨⟨r, t₁⟩, h1, hrest⟩ := bind_ok_iff.mp hcalls
  obtain ⟨⟨r', t₂⟩, h2, hrest'⟩ := bind_ok_iff.mp hrest
  obtain ⟨⟨n, t₃⟩, h3, h4⟩ := bind_ok_iff.mp hrest'
  simp only [Except.ok.injEq, Prod.mk.injEq] at h4
  obtain ⟨rfl, rfl, rfl, hab⟩ := h4
  have hg : Grown (fsInit zeroFiles) [lit "/a/b", lit "/a"] t₃ := by
    refine .written (q := lit "/a/b") (.created (.created .start (by decide) (Or.inl h1) (by decide))
      (by decide) (Or.inr h2) (by decide)) h3 ?_
    intro i hi
    obtain rfl : 2 = i := Resolves.unique hab hi
    show 1 ≤ 2
    decide
  exact ⟨t₃, hg, reverse_delete ⟨zeroFiles, [], by simp, rfl⟩ hg⟩

end FoxOS
