import FoxOS.Term.Model
import FoxOS.Fs.Ops
import FoxOS.Vga.Cursor

/-!
# FoxOS.Term.Shell — what a command can do

`runCommand_ok`: a command that ends normally has drawn something (`Draws`), has left the input line alone
and has made one change to the directory and the file system (`ShellChange`).  `executeLine` types a line into
the input buffer and executes it; `executeCommand_eq` says that the command sees the line in the buffer.
-/

namespace FoxOS

open Shift

/-! ### Drawing -/

/-- What commands do to the console: print, clear, change the colour. -/
inductive Draws (v : Vga) : Vga → Prop
  | refl : Draws v v
  | chars {w : Vga} (h : Draws v w) (cs : List Byte) : Draws v (putChars w cs)
  | clear {w : Vga} (h : Draws v w) : Draws v (vgaClear w)
  | color {w : Vga} (h : Draws v w) (fg bg : UInt8) : Draws v (vgaSetColor w fg bg)

theorem Draws.trans {u v w : Vga} (h : Draws u v) (h' : Draws v w) : Draws u w := by
  induction h' with
  | refl => exact h
  | chars _ cs ih => exact ih.chars cs
  | clear _ ih => exact ih.clear
  | color _ fg bg ih => exact ih.color fg bg

theorem Draws.safe {v w : Vga} (h : Draws v w) (hv : v.Safe) : w.Safe := by
  induction h with
  | refl => exact hv
  | chars _ cs ih => exact safe_putChars ih cs
  | clear _ ih => exact safe_clear ih.stores
  | color _ _ _ ih => exact ⟨⟨ih.x, ih.y⟩, ih.stores⟩

/-- Only the console changed. -/
structure Printed (s s' : Sys) : Prop where
  draws : Draws s.vga s'.vga
  term : s'.term = s.term
  fs : s'.fs = s.fs

theorem Printed.trans {s t u : Sys} (h : Printed s t) (h' : Printed t u) : Printed s u :=
  ⟨h.draws.trans h'.draws, h'.term.trans h.term, h'.fs.trans h.fs⟩

variable {s s' : Sys} {line : List Byte}

theorem printf_ok {format : List Byte} {args : List Arg} (h : s.printf format args = .ok s') :
    Printed s s' := by
  obtain ⟨v, hv, h1⟩ := bind_ok_iff.mp h
  obtain ⟨cs, -, h2⟩ := bind_ok_iff.mp hv
  cases h1
  cases h2
  exact ⟨.chars .refl cs, rfl, rfl⟩

theorem printfs_ok {calls : List (List Byte × List Arg)} (h : s.printfs calls = .ok s') : Printed s s' := by
  induction calls generalizing s with
  | nil => cases h; exact ⟨.refl, rfl, rfl⟩
  | cons call rest ih =>
    obtain ⟨t, h1, h2⟩ := bind_ok_iff.mp h
    exact (printf_ok h1).trans (ih h2)

theorem showColors_ok {colors : List (UInt8 × List Byte)} (h : s.showColors colors = .ok s') :
    Printed s s' := by
  induction colors generalizing s with
  | nil => cases h; exact ⟨.refl, rfl, rfl⟩
  | cons c rest ih =>
    obtain ⟨t, h1, h2⟩ := bind_ok_iff.mp h
    have hset : Printed s (s.withVga (vgaSetColor s.vga c.1 vgaColorBlack)) :=
      ⟨.color .refl _ _, rfl, rfl⟩
    exact hset.trans ((printf_ok h1).trans (ih h2))

/-! ### Changes of the directory and the file system -/

/-- `full` is the path a command line builds in directory `dir`, and it fits its buffer. -/
def BuildsPath (dir line full : List Byte) : Prop :=
  ∃ arg1 arg2, parseArgs line = .ok (arg1, arg2) ∧ arg1 ≠ [] ∧ full = fullPathOf dir arg1 ∧
    full.length < maxFilename * 2

/-- The changes a command line can make to the current directory and the file system. -/
inductive ShellChange (dir : List Byte) (fs : FS) (line : List Byte) : List Byte → FS → Prop
  | same : ShellChange dir fs line dir fs
  | home : ShellChange dir fs line (str "/") fs
  | cd {full : List Byte} {i : ℕ} (hb : BuildsPath dir line full) (hg : fsGetFile fs full = .ok (some i))
      (hd : (fs.files i).type = .dir) : ShellChange dir fs line full fs
  | mkdir {full : List Byte} {r : Int} {fs' : FS} (hb : BuildsPath dir line full)
      (h : fsMkdir fs full = .ok (r, fs')) : ShellChange dir fs line dir fs'
  | touch {full : List Byte} {p : ℕ} {r : Int} {fs' : FS} (hb : BuildsPath dir line full)
      (hp : fsParsePath fs (if dirPart full = [] then [slash] else dirPart full) = .ok (p : Int))
      (h : fsCreateFile fs (namePart full) .file p = .ok (r, fs')) : ShellChange dir fs line dir fs'
  | rm {full : List Byte} {r : Int} {fs' : FS} (hrm : commandOf line = .rm)
      (hb : BuildsPath dir line full) (h : fsDeleteFile fs full = .ok (r, fs')) :
      ShellChange dir fs line dir fs'

/-- What a command leaves: the input line is untouched. -/
structure Ran (s : Sys) (line : List Byte) (s' : Sys) : Prop where
  draws : Draws s.vga s'.vga
  buffer : s'.term.inputBuffer = s.term.inputBuffer
  bufferPos : s'.term.bufferPos = s.term.bufferPos
  cursorPos : s'.term.cursorPos = s.term.cursorPos
  promptLength : s'.term.promptLength = s.term.promptLength
  change : ShellChange s.term.currentDir s.fs line s'.term.currentDir s'.fs

theorem Printed.ran (h : Printed s s') (line : List Byte) : Ran s line s' := by
  obtain ⟨hd, ht, hf⟩ := h
  refine ⟨hd, by rw [ht], by rw [ht], by rw [ht], by rw [ht], ?_⟩
  rw [ht, hf]
  exact .same

/-- Text printed after a change of the file system. -/
theorem ran_withFs {fs' : FS} (hc : ShellChange s.term.currentDir s.fs line s.term.currentDir fs')
    (h : Printed (s.withFs fs') s') : Ran s line s' := by
  obtain ⟨hd, ht, hf⟩ := h
  have ht' : s'.term = s.term := ht
  refine ⟨hd, by rw [ht'], by rw [ht'], by rw [ht'], by rw [ht'], ?_⟩
  rw [ht', hf]
  exact hc

/-- The reply of the commands that change the file system: a text if the call failed. -/
theorem ran_reply {fs' : FS} {r : Int} {text : List Byte}
    (hc : ShellChange s.term.currentDir s.fs line s.term.currentDir fs')
    (h : (if r < 0 then (s.withFs fs').printf text [] else .ok (s.withFs fs')) = .ok s') : Ran s line s' := by
  by_cases hr : r < 0
  · rw [if_pos hr] at h
    exact ran_withFs hc (printf_ok h)
  · rw [if_neg hr] at h
    cases h
    exact ran_withFs hc ⟨.refl, rfl, rfl⟩

theorem ran_withDir {dir : List Byte} (hc : ShellChange s.term.currentDir s.fs line dir s.fs) :
    Ran s line (s.withDir dir) := ⟨.refl, rfl, rfl, rfl, rfl, hc⟩

theorem buildPath_ok {dir arg1 arg2 full : List Byte} (ha : parseArgs line = .ok (arg1, arg2))
    (hne : arg1 ≠ []) (h : buildPath dir arg1 = .ok full) : BuildsPath dir line full := by
  obtain ⟨hlen, rfl⟩ := fit_eq_ok.mp h
  exact ⟨arg1, arg2, ha, hne, rfl, hlen⟩

theorem lsCommand_ok (h : lsCommand s line = .ok s') : Ran s line s' := by
  obtain ⟨⟨arg1, arg2⟩, -, h1⟩ := bind_ok_iff.mp h
  obtain ⟨full, -, h2⟩ := bind_ok_iff.mp h1
  obtain ⟨⟨count, text⟩, -, h3⟩ := bind_ok_iff.mp h2
  by_cases hc : count < 0
  · simp only [if_pos hc] at h3
    exact (printf_ok h3).ran line
  · simp only [if_neg hc] at h3
    exact (printf_ok h3).ran line

theorem cdCommand_ok (h : cdCommand s line = .ok s') : Ran s line s' := by
  obtain ⟨⟨arg1, arg2⟩, ha, h1⟩ := bind_ok_iff.mp h
  by_cases hne : arg1 = []
  · simp only [if_pos hne] at h1
    cases h1
    exact ran_withDir .home
  simp only [if_neg hne] at h1
  obtain ⟨full, hb, h2⟩ := bind_ok_iff.mp h1
  obtain ⟨dir, hg, h3⟩ := bind_ok_iff.mp h2
  by_cases hd : dir.any (fun i => decide ((s.fs.files i).type = .dir)) = true
  · rw [if_pos hd] at h3
    obtain ⟨d, hfit, h4⟩ := bind_ok_iff.mp h3
    obtain ⟨-, rfl⟩ := fit_eq_ok.mp hfit
    cases h4
    obtain ⟨i, rfl, hi⟩ := Option.any_eq_true _ _ |>.mp hd
    exact ran_withDir (.cd (buildPath_ok ha hne hb) hg (of_decide_eq_true hi))
  · rw [if_neg hd] at h3
    exact (printf_ok h3).ran line

theorem mkdirCommand_ok (h : mkdirCommand s line = .ok s') : Ran s line s' := by
  obtain ⟨⟨arg1, arg2⟩, ha, h1⟩ := bind_ok_iff.mp h
  by_cases hne : arg1 = []
  · simp only [if_pos hne] at h1
    exact (printf_ok h1).ran line
  simp only [if_neg hne] at h1
  obtain ⟨full, hb, h2⟩ := bind_ok_iff.mp h1
  obtain ⟨⟨r, fs'⟩, hm, h3⟩ := bind_ok_iff.mp h2
  exact ran_reply (.mkdir (buildPath_ok ha hne hb) hm) h3

theorem touchCommand_ok (h : touchCommand s line = .ok s') : Ran s line s' := by
  obtain ⟨⟨arg1, arg2⟩, ha, h1⟩ := bind_ok_iff.mp h
  by_cases hne : arg1 = []
  · simp only [if_pos hne] at h1
    exact (printf_ok h1).ran line
  simp only [if_neg hne] at h1
  obtain ⟨full, hb, h2⟩ := bind_ok_iff.mp h1
  obtain ⟨d, hd, h3⟩ := bind_ok_iff.mp h2
  obtain ⟨-, rfl⟩ := fit_eq_ok.mp hd
  obtain ⟨index, hi, h4⟩ := bind_ok_iff.mp h3
  by_cases hpos : 0 ≤ index
  · simp only [if_pos hpos] at h4
    obtain ⟨⟨r, fs'⟩, hm, h5⟩ := bind_ok_iff.mp h4
    obtain ⟨p, rfl⟩ : ∃ p : ℕ, index = (p : Int) := ⟨index.toNat, by omega⟩
    exact ran_reply (.touch (buildPath_ok ha hne hb) hi hm) h5
  · simp only [if_neg hpos] at h4
    exact (printf_ok h4).ran line

theorem rmCommand_ok (hrm : commandOf line = .rm) (h : rmCommand s line = .ok s') :
    Ran s line s' := by
  obtain ⟨⟨arg1, arg2⟩, ha, h1⟩ := bind_ok_iff.mp h
  by_cases hne : arg1 = []
  · simp only [if_pos hne] at h1
    exact (printf_ok h1).ran line
  simp only [if_neg hne] at h1
  obtain ⟨full, hb, h2⟩ := bind_ok_iff.mp h1
  obtain ⟨⟨r, fs'⟩, hm, h3⟩ := bind_ok_iff.mp h2
  exact ran_reply (.rm hrm (buildPath_ok ha hne hb) hm) h3

/-- **One command**: what a command that ends normally has done. -/
theorem runCommand_ok (h : runCommand s line = .ok s') : Ran s line s' := by
  unfold runCommand at h
  cases hc : commandOf line with
  | help => rw [hc] at h; exact (printfs_ok h).ran line
  | clear => rw [hc] at h; cases h; exact ⟨.clear .refl, rfl, rfl, rfl, rfl, .same⟩
  | exit =>
    rw [hc] at h
    obtain ⟨t, -, h'⟩ := bind_ok_iff.mp h
    cases h'
  | testFormatting => rw [hc] at h; exact (printfs_ok h).ran line
  | testColors =>
    rw [hc] at h
    obtain ⟨t, ht, h'⟩ := bind_ok_iff.mp h
    exact ((printf_ok ht).trans (showColors_ok h')).ran line
  | version => rw [hc] at h; exact (printf_ok h).ran line
  | color => rw [hc] at h; cases h; exact ⟨.color .refl _ _, rfl, rfl, rfl, rfl, .same⟩
  | pwd => rw [hc] at h; exact (printf_ok h).ran line
  | ls => rw [hc] at h; exact lsCommand_ok h
  | cd => rw [hc] at h; exact cdCommand_ok h
  | mkdir => rw [hc] at h; exact mkdirCommand_ok h
  | touch => rw [hc] at h; exact touchCommand_ok h
  | rm => rw [hc] at h; exact rmCommand_ok hc h
  | unknown => rw [hc] at h; exact (printf_ok h).ran line

/-! ### Command lines -/

/-- A line that stands in the input buffer with its terminator is the line that the command sees. -/
theorem executeCommand_eq (hpos : s.term.bufferPos = line.length) (hlen : line.length < terminalBufferSize)
    (hend : s.term.inputBuffer line.length = 0) (hline : commandLine s.term = line) :
    executeCommand s = if line = [] then .ok s else runCommand s line := by
  unfold executeCommand
  rw [hpos]
  by_cases hne : line = []
  · rw [if_pos hne, if_pos (List.length_eq_zero_iff.mpr hne)]
  -- the terminator is stored where it already is
  have hstore : storeAt terminalBufferSize inputFault line.length 0 s.term.inputBuffer =
      .ok s.term.inputBuffer := by
    rw [storeAt, if_pos hlen]
    exact congrArg Except.ok (Function.update_eq_self_iff.mpr hend.symm)
  rw [if_neg hne, if_neg (fun h => hne (List.length_eq_zero_iff.mp h)), hstore, Except.bind]
  exact congrArg (runCommand s) hline

/-- The line in the input buffer, behind the cursor nothing. -/
def typed (s : Sys) (line : List Byte) : Sys :=
  { s with term := { s.term with inputBuffer := strcpy s.term.inputBuffer line, bufferPos := line.length } }

/-- `execute_command` with the line in the input buffer. -/
def executeLine (s : Sys) (line : CString) : Except Fault Sys := executeCommand (typed s line.val)

theorem executeLine_eq (s : Sys) {line : CString} (hlen : line.val.length < terminalBufferSize) :
    executeLine s line =
      if line.val = [] then .ok (typed s line.val) else runCommand (typed s line.val) line.val := by
  have hend : strcpy s.term.inputBuffer line.val line.val.length = 0 := by simp [strcpy]
  exact executeCommand_eq (s := typed s line.val) rfl hlen hend (cstr_strcpy line.noNul hlen _)

/-- **One command line**: the change it makes. -/
theorem executeLine_change {line : CString} (hlen : line.val.length < terminalBufferSize)
    (h : executeLine s line = .ok s') :
    ShellChange s.term.currentDir s.fs line.val s'.term.currentDir s'.fs := by
  rw [executeLine_eq s hlen] at h
  by_cases hne : line.val = []
  · rw [if_pos hne] at h
    cases h
    exact .same
  · rw [if_neg hne] at h
    exact (runCommand_ok h).change

/-! ### The state after booting -/

/-- The prompt has no directives. -/
theorem printf_prompt (s : Sys) :
    s.printf terminalPrompt [] = .ok (s.withVga (putChars s.vga terminalPrompt)) := by
  have hchars : printfChars terminalPrompt [] = .ok terminalPrompt := by decide +kernel
  rw [Sys.printf, vgaPrintf, hchars]
  rfl

/-- The state when the main loop starts. -/
structure Started (s : Sys) : Prop where
  vga : s.vga.Safe
  buffer : ∀ j < terminalBufferSize, s.term.inputBuffer j = 0
  bufferPos : s.term.bufferPos = 0
  cursorPos : s.term.cursorPos = 0
  promptLength : s.term.promptLength = terminalPrompt.length
  dir : s.term.currentDir = str "/"
  fs : s.fs = fsInit (fsInit zeroFiles).files

theorem safe_bootVga (mem : Int → UInt16) : (bootVga mem).Safe := by
  have hclear : (vgaInit ⟨mem, 0, 0, 0, 0, 0, []⟩).Safe := safe_clear (fun i hi => absurd hi List.not_mem_nil)
  exact safe_putChars (safe_putChars (safe_putChars (safe_putChars (safe_putChars (safe_putChars
    (safe_putChars (safe_putChars hclear _) _) _) _) _) _) _) _

theorem start_ok (mem : Int → UInt16) : ∃ s, start mem = .ok s ∧ Started s := by
  have hsafe := safe_putChars (safe_bootVga mem) terminalPrompt
  unfold start terminalInit
  rw [printf_prompt]
  exact ⟨_, rfl, hsafe, fun j hj => if_pos hj, rfl, rfl, rfl, rfl, rfl⟩

end FoxOS
