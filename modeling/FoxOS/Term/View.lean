import FoxOS.Lib.Runs
import FoxOS.Term.Shell

/-!
# FoxOS.Term.View — what a command sees

A command reads the current directory, the file system and its line; the screen and the input buffer do not
matter to what it does to the first two (`runCommand_same`): two systems that agree on them agree afterwards, or
fail in the same way.
-/

namespace FoxOS

open Runs

variable {s t : Sys}

/-- Two systems whose commands see the same: the directory and the file system. -/
structure SameShell (s t : Sys) : Prop where
  dir : s.term.currentDir = t.term.currentDir
  fs : s.fs = t.fs

theorem SameShell.refl (s : Sys) : SameShell s s := ⟨rfl, rfl⟩

theorem SameShell.trans {u : Sys} (h : SameShell s t) (h' : SameShell t u) : SameShell s u :=
  ⟨h.dir.trans h'.dir, h.fs.trans h'.fs⟩

theorem SameShell.symm (h : SameShell s t) : SameShell t s := ⟨h.dir.symm, h.fs.symm⟩

theorem printf_same (h : SameShell s t) (format : List Byte) (args : List Arg) :
    Rel SameShell (s.printf format args) (t.printf format args) := by
  rw [Sys.printf, Sys.printf, vgaPrintf, vgaPrintf]
  rcases printfChars format args with e | cs
  · exact .error e
  · exact .ok ⟨h.dir, h.fs⟩

theorem printfs_same (h : SameShell s t) (calls : List (List Byte × List Arg)) :
    Rel SameShell (s.printfs calls) (t.printfs calls) := by
  induction calls generalizing s t with
  | nil => exact .ok h
  | cons call rest ih => exact (printf_same h call.1 call.2).bind fun _ _ h' => ih h'

theorem showColors_same (h : SameShell s t) (colors : List (UInt8 × List Byte)) :
    Rel SameShell (s.showColors colors) (t.showColors colors) := by
  induction colors generalizing s t with
  | nil => exact .ok h
  | cons color rest ih =>
    have hset : SameShell (s.withVga (vgaSetColor s.vga color.1 vgaColorBlack))
        (t.withVga (vgaSetColor t.vga color.1 vgaColorBlack)) := ⟨h.dir, h.fs⟩
    exact (printf_same hset color.2 []).bind fun _ _ h' => ih h'

/-- The reply of the commands that change the file system. -/
theorem reply_same (h : SameShell s t) (fs : FS) (r : Int) (text : List Byte) :
    Rel SameShell (if r < 0 then (s.withFs fs).printf text [] else .ok (s.withFs fs))
      (if r < 0 then (t.withFs fs).printf text [] else .ok (t.withFs fs)) := by
  have hfs : SameShell (s.withFs fs) (t.withFs fs) := ⟨h.dir, rfl⟩
  by_cases hr : r < 0
  · rw [if_pos hr, if_pos hr]
    exact printf_same hfs text []
  · rw [if_neg hr, if_neg hr]
    exact .ok hfs

theorem lsCommand_same (h : SameShell s t) (line : List Byte) :
    Rel SameShell (lsCommand s line) (lsCommand t line) := by
  unfold lsCommand
  rw [h.dir, h.fs]
  refine .bind_same fun ⟨arg1, _⟩ _ => .bind_same fun full _ => .bind_same fun ⟨count, text⟩ _ => ?_
  by_cases hc : count < 0
  · simp only [if_pos hc]
    exact printf_same h _ _
  · simp only [if_neg hc]
    exact printf_same h _ _

theorem cdCommand_same (h : SameShell s t) (line : List Byte) :
    Rel SameShell (cdCommand s line) (cdCommand t line) := by
  unfold cdCommand
  rw [h.dir, h.fs]
  refine .bind_same fun ⟨arg1, _⟩ _ => ?_
  by_cases hne : arg1 = []
  · simp only [if_pos hne]
    exact .ok ⟨rfl, h.fs⟩
  simp only [if_neg hne]
  refine .bind_same fun full _ => .bind_same fun dir _ => ?_
  by_cases hd : dir.any (fun i => decide ((t.fs.files i).type = .dir)) = true
  · rw [if_pos hd, if_pos hd]
    exact .bind_same fun full' _ => .ok ⟨rfl, h.fs⟩
  · rw [if_neg hd, if_neg hd]
    exact printf_same h _ _

theorem mkdirCommand_same (h : SameShell s t) (line : List Byte) :
    Rel SameShell (mkdirCommand s line) (mkdirCommand t line) := by
  unfold mkdirCommand
  rw [h.dir, h.fs]
  refine .bind_same fun ⟨arg1, _⟩ _ => ?_
  by_cases hne : arg1 = []
  · simp only [if_pos hne]
    exact printf_same h _ _
  · simp only [if_neg hne]
    exact .bind_same fun full _ => .bind_same fun ⟨r, fs⟩ _ => reply_same h fs r _

theorem touchCommand_same (h : SameShell s t) (line : List Byte) :
    Rel SameShell (touchCommand s line) (touchCommand t line) := by
  unfold touchCommand
  rw [h.dir, h.fs]
  refine .bind_same fun ⟨arg1, _⟩ _ => ?_
  by_cases hne : arg1 = []
  · simp only [if_pos hne]
    exact printf_same h _ _
  simp only [if_neg hne]
  refine .bind_same fun full _ => .bind_same fun parent _ => .bind_same fun index _ => ?_
  by_cases hpos : 0 ≤ index
  · simp only [if_pos hpos]
    exact .bind_same fun ⟨r, fs⟩ _ => reply_same h fs r _
  · simp only [if_neg hpos]
    exact printf_same h _ _

theorem rmCommand_same (h : SameShell s t) (line : List Byte) :
    Rel SameShell (rmCommand s line) (rmCommand t line) := by
  unfold rmCommand
  rw [h.dir, h.fs]
  refine .bind_same fun ⟨arg1, _⟩ _ => ?_
  by_cases hne : arg1 = []
  · simp only [if_pos hne]
    exact printf_same h _ _
  · simp only [if_neg hne]
    exact .bind_same fun full _ => .bind_same fun ⟨r, fs⟩ _ => reply_same h fs r _

/-- **One command** does the same, whatever is on the screen and in the input buffer. -/
theorem runCommand_same (h : SameShell s t) (line : List Byte) :
    Rel SameShell (runCommand s line) (runCommand t line) := by
  unfold runCommand
  rcases commandOf line
  · exact printfs_same h _
  · exact .ok ⟨h.dir, h.fs⟩
  · exact (printf_same h _ _).bind fun _ _ _ => .error _
  · exact printfs_same h _
  · exact (printf_same h _ _).bind fun _ _ h' => showColors_same h' _
  · exact printf_same h _ _
  · exact .ok ⟨h.dir, h.fs⟩
  · simp only [h.dir]
    exact printf_same h _ _
  · exact lsCommand_same h line
  · exact cdCommand_same h line
  · exact mkdirCommand_same h line
  · exact touchCommand_same h line
  · exact rmCommand_same h line
  · exact printf_same h _ _

end FoxOS
