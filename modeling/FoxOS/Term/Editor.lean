import FoxOS.Lib.Zipper
import FoxOS.Term.Faults

/-!
# FoxOS.Term.Editor — the line editor refines a zipper

`lineKey` is the editor in the abstract: a line with a gap.  `Editing z t` relates it to the input buffer and
its two counters.  `terminalRun_step` says once what each key does (`KeyEffect`: nothing, a cursor move, an edit
with a redraw, a line entered); everything about runs of the editor is derived from it.  `editor_refines` is the
refinement for whole runs, with the command line that `execute_command` sees.
-/

namespace FoxOS

open Shift Runs

/-! ### The abstract editor -/

/-- A character that can be typed. -/
def Printable (c : Byte) : Prop := 32 ≤ c ∧ c ≤ 126

instance (c : Byte) : Decidable (Printable c) := inferInstanceAs (Decidable (_ ∧ _))

/-- What a key does to the line. -/
def lineKey (z : Zipper Byte) (c : Byte) : Zipper Byte :=
  if c = newline then .empty
  else if c = charLeft then z.moveLeft
  else if c = charRight then z.moveRight
  else if c = backspace then z.backspace
  else if c = charDel then z.delete
  else if Printable c then z.insert (terminalBufferSize - 1) c
  else z

/-- The line in the input buffer: the counters, the cells, and only characters that can be typed. -/
structure Editing (z : Zipper Byte) (t : Term) : Prop where
  stored : z.Stored terminalBufferSize 0 t.inputBuffer t.bufferPos t.cursorPos
  printable : ∀ c ∈ z.toList, Printable c
  prompt : t.promptLength = terminalPrompt.length

variable {z : Zipper Byte} {s s' : Sys} {t : Term} {c : Byte}

theorem Printable.ne {k : Byte} (h : Printable c) (hk : ¬ Printable k) : c ≠ k := by
  rintro rfl
  exact hk h

theorem Editing.nul_not_mem (h : Editing z t) : (0 : Byte) ∉ z.toList :=
  fun h0 => (h.printable 0 h0).ne (by decide) rfl

/-- The line, read back from the buffer. -/
theorem Editing.line (h : Editing z t) : (List.range t.bufferPos).map t.inputBuffer = z.toList := by
  have hread : readAll terminalBufferSize inputFault t.bufferPos t.inputBuffer = .ok z.toList :=
    h.stored.readAll
  rw [readAll, if_pos (Nat.le_of_lt h.stored.room)] at hread
  exact Except.ok.inj hread

/-- The cleared buffer is the empty line. -/
theorem editing_clear (hp : t.promptLength = terminalPrompt.length) : Editing .empty (clearBuffer t) :=
  ⟨Zipper.stored_empty (fun _ hj => if_pos hj) (by decide), fun _ h => absurd h List.not_mem_nil, hp⟩

/-- A string that an array holds is the string that is read from it. -/
theorem cstr_of_holds {n : ℕ} {m : ℕ → Byte} {l : List Byte} (h : Shift.Holds n 0 m l) (h0 : (0 : Byte) ∉ l)
    (hl : l.length < n) : cstr m n = l := by
  induction l generalizing n m with
  | nil =>
    cases n with
    | zero => rfl
    | succ n =>
      have hend : m 0 = 0 := h 0 (Nat.succ_pos n)
      rw [cstr, if_pos hend]
  | cons b l ih =>
    rw [List.mem_cons, not_or] at h0
    cases n with
    | zero => exact absurd hl (Nat.not_lt_zero _)
    | succ n =>
      have hb : m 0 = b := h 0 (Nat.succ_pos n)
      have htail : Shift.Holds n 0 (fun i => m (i + 1)) l := fun j hj => h (j + 1) (Nat.succ_lt_succ hj)
      rw [cstr, hb, if_neg (Ne.symm h0.1), ih htail h0.2 (Nat.lt_of_succ_lt_succ hl)]

theorem Editing.commandLine (h : Editing z t) : commandLine t = z.toList :=
  cstr_of_holds h.stored.cells h.nul_not_mem (h.stored.length_toList ▸ h.stored.room)

/-- **The line entered**: `execute_command` runs the line of the zipper. -/
theorem Editing.executeCommand (h : Editing z s.term) :
    executeCommand s = if z.toList = [] then .ok s else runCommand s z.toList := by
  have hlen := h.stored.length_toList
  have hroom : z.toList.length < terminalBufferSize := hlen ▸ h.stored.room
  exact executeCommand_eq hlen.symm hroom (h.stored.filler (Nat.le_of_eq hlen.symm) hroom) h.commandLine

/-! ### What a key does -/

/-- The effect of a key on the positions. -/
inductive KeyEffect
  | ignored
  | moved (cursorPos : ℕ)
  | edited (bufferPos cursorPos : ℕ)
  | entered

/-- The branches of `terminal_run`, without the buffer. -/
def keyEffect (t : Term) (c : Byte) : KeyEffect :=
  if c = 0 then .ignored
  else if c = charLeft then if t.cursorPos > 0 then .moved (t.cursorPos - 1) else .ignored
  else if c = charRight then if t.cursorPos < t.bufferPos then .moved (t.cursorPos + 1) else .ignored
  else if c = charDel then
    if t.cursorPos < t.bufferPos then .edited (t.bufferPos - 1) t.cursorPos else .ignored
  else if c = newline then .entered
  else if c = backspace then
    if t.cursorPos > 0 then .edited (t.bufferPos - 1) (t.cursorPos - 1) else .ignored
  else if t.bufferPos < terminalBufferSize - 1 ∧ 32 ≤ c ∧ c ≤ 126 then
    .edited (t.bufferPos + 1) (t.cursorPos + 1)
  else .ignored

/-- The result of key `c` with a given effect, when the line becomes `z'`. -/
inductive KeyStep (s : Sys) (c : Byte) (z z' : Zipper Byte) : KeyEffect → Except Fault Sys → Prop
  | ignored (hz : z' = z) : KeyStep s c z z' .ignored (.ok s)
  | moved {pos : ℕ} (h : Editing z' { s.term with cursorPos := pos }) :
      KeyStep s c z z' (.moved pos) (.ok (moveCursor s pos))
  | edited {buffer : ℕ → Byte} {size pos : ℕ}
      (h : Editing z' { s.term with inputBuffer := buffer, bufferPos := size, cursorPos := pos }) :
      KeyStep s c z z' (.edited size pos) (editLine s buffer size pos)
  | entered (hc : c = newline) (hz : z' = .empty) :
      KeyStep s c z z' .entered ((executeCommand (s.withVga (vgaPutchar s.vga newline))).bind fun s =>
        Sys.printf { s with term := clearBuffer s.term } terminalPrompt [])

section Keys

variable (h : Editing z s.term)
include h

theorem keyStep_left : KeyStep s c z z.moveLeft
    (if s.term.cursorPos > 0 then .moved (s.term.cursorPos - 1) else .ignored)
    (if s.term.cursorPos > 0 then .ok (moveCursor s (s.term.cursorPos - 1)) else .ok s) := by
  by_cases hpos : s.term.cursorPos > 0
  · rw [if_pos hpos, if_pos hpos]
    refine .moved ⟨h.stored.moveLeft hpos, ?_, h.prompt⟩
    rw [Zipper.toList_moveLeft]
    exact h.printable
  · rw [if_neg hpos, if_neg hpos]
    refine .ignored ?_
    rw [h.stored.left_nil hpos, Zipper.moveLeft_nil]

theorem keyStep_right : KeyStep s c z z.moveRight
    (if s.term.cursorPos < s.term.bufferPos then .moved (s.term.cursorPos + 1) else .ignored)
    (if s.term.cursorPos < s.term.bufferPos then .ok (moveCursor s (s.term.cursorPos + 1)) else .ok s) := by
  by_cases hpos : s.term.cursorPos < s.term.bufferPos
  · rw [if_pos hpos, if_pos hpos]
    refine .moved ⟨h.stored.moveRight hpos, ?_, h.prompt⟩
    rw [Zipper.toList_moveRight]
    exact h.printable
  · rw [if_neg hpos, if_neg hpos]
    refine .ignored ?_
    rw [h.stored.right_nil hpos, Zipper.moveRight_nil]

/-- The state of the editor after an edit of the buffer. -/
theorem Editing.edit {z' : Zipper Byte} {buffer : ℕ → Byte} {size pos : ℕ}
    (hst : z'.Stored terminalBufferSize 0 buffer size pos) (hsub : z'.toList ⊆ z.toList) :
    Editing z' { s.term with inputBuffer := buffer, bufferPos := size, cursorPos := pos } :=
  ⟨hst, fun c hc => h.printable c (hsub hc), h.prompt⟩

theorem keyStep_delete : KeyStep s c z z.delete
    (if s.term.cursorPos < s.term.bufferPos then .edited (s.term.bufferPos - 1) s.term.cursorPos else .ignored)
    (if s.term.cursorPos < s.term.bufferPos then
      (shiftDown terminalBufferSize inputFault (s.term.bufferPos - 1 - s.term.cursorPos) s.term.cursorPos
        s.term.inputBuffer).bind fun buffer =>
        (storeAt terminalBufferSize inputFault (s.term.bufferPos - 1) 0 buffer).bind fun buffer =>
          editLine s buffer (s.term.bufferPos - 1) s.term.cursorPos
      else .ok s) := by
  by_cases hpos : s.term.cursorPos < s.term.bufferPos
  · obtain ⟨m₁, m₂, e1, e2, hst⟩ := h.stored.delete (f := inputFault) hpos
    rw [if_pos hpos, if_pos hpos, e1, Except.bind, e2, Except.bind]
    exact .edited (h.edit hst (Zipper.delete_subset z))
  · rw [if_neg hpos, if_neg hpos]
    refine .ignored ?_
    rw [h.stored.right_nil hpos, Zipper.delete_nil]

theorem keyStep_backspace : KeyStep s c z z.backspace
    (if s.term.cursorPos > 0 then .edited (s.term.bufferPos - 1) (s.term.cursorPos - 1) else .ignored)
    (if s.term.cursorPos > 0 then
      (shiftDown terminalBufferSize inputFault (s.term.bufferPos - 1 - (s.term.cursorPos - 1))
        (s.term.cursorPos - 1) s.term.inputBuffer).bind fun buffer =>
        (storeAt terminalBufferSize inputFault (s.term.bufferPos - 1) 0 buffer).bind fun buffer =>
          editLine s buffer (s.term.bufferPos - 1) (s.term.cursorPos - 1)
      else .ok s) := by
  by_cases hpos : s.term.cursorPos > 0
  · obtain ⟨m₁, m₂, e1, e2, hst⟩ := h.stored.backspace (f := inputFault) hpos
    rw [if_pos hpos, if_pos hpos, e1, Except.bind, e2, Except.bind]
    exact .edited (h.edit hst (Zipper.backspace_subset z))
  · rw [if_neg hpos, if_neg hpos]
    refine .ignored ?_
    rw [h.stored.left_nil hpos, Zipper.backspace_nil]

end Keys

/-- **One key**: its effect on the positions, the new line and the result. -/
theorem terminalRun_step (h : Editing z s.term) (c : Byte) :
    KeyStep s c z (lineKey z c) (keyEffect s.term c) (terminalRun s c) := by
  unfold lineKey keyEffect terminalRun
  by_cases h0 : c = 0
  · subst h0
    exact .ignored rfl
  rw [if_neg h0, if_neg h0]
  by_cases h1 : c = charLeft
  · subst h1
    exact keyStep_left h
  rw [if_neg h1, if_neg h1, if_neg h1]
  by_cases h2 : c = charRight
  · subst h2
    exact keyStep_right h
  rw [if_neg h2, if_neg h2, if_neg h2]
  by_cases h3 : c = charDel
  · subst h3
    exact keyStep_delete h
  rw [if_neg h3, if_neg h3, if_neg h3]
  by_cases h4 : c = newline
  · rw [if_pos h4, if_pos h4, if_pos h4]
    exact .entered h4 rfl
  rw [if_neg h4, if_neg h4, if_neg h4]
  by_cases h5 : c = backspace
  · rw [if_pos h5, if_pos h5, if_pos h5]
    exact keyStep_backspace h
  rw [if_neg h5, if_neg h5, if_neg h5]
  by_cases h6 : s.term.bufferPos < terminalBufferSize - 1 ∧ 32 ≤ c ∧ c ≤ 126
  · have hc : Printable c := h6.2
    obtain ⟨m₁, m₂, e1, e2, hst⟩ := h.stored.insert (f := inputFault) h6.1 c
    rw [if_pos hc, if_pos h6, if_pos h6, e1, Except.bind, e2, Except.bind]
    refine .edited ⟨hst, fun d hd => ?_, h.prompt⟩
    rcases Zipper.mem_insert hd with rfl | hd
    · exact hc
    · exact h.printable d hd
  · rw [if_neg h6, if_neg h6]
    refine .ignored ?_
    by_cases hc : Printable c
    · rw [if_pos hc, Zipper.insert_full h.stored fun hlt => h6 ⟨hlt, hc⟩]
    · rw [if_neg hc]

/-! ### Steps and runs -/

/-- The row of the line in which its `n`-th character stands. -/
def lineRow (t : Term) (n : ℕ) : ℕ := (t.promptLength + n) / vgaWidth

/-- The row of the screen where the code sees the first row of a line of `n` characters. -/
def firstRow (s : Sys) (n : ℕ) : Int := s.vga.cursorY - lineRow s.term n

/-- A redraw reads the line from the buffer and draws it behind the prompt; it never faults. -/
theorem redraw_eq (h : Editing z s.term) :
    redrawInputLine s = .ok (updateCursorPosition (s.withVga (drawLine s.vga (s.term.promptLength % vgaWidth : ℕ)
      (firstRow s s.term.bufferPos) (s.term.bufferPos + 1) z.toList))) := by
  unfold redrawInputLine
  rw [h.stored.readAll]
  rfl

/-- A command that ends normally leaves the prompt and keeps the current directory inside its buffer. -/
theorem entered_ok (h : Editing z s.term) (hdir : s.term.currentDir.length < maxFilename * 2)
    (hs : executeCommand s = .ok s') :
    Draws s.vga s'.vga ∧ s'.term.promptLength = terminalPrompt.length ∧
      s'.term.currentDir.length < maxFilename * 2 := by
  rw [h.executeCommand] at hs
  by_cases hne : z.toList = []
  · rw [if_pos hne] at hs
    cases hs
    exact ⟨.refl, h.prompt, hdir⟩
  · rw [if_neg hne] at hs
    have hran := runCommand_ok hs
    exact ⟨hran.draws, hran.promptLength.trans h.prompt, dir_lt_of_change hran.change hdir⟩

/-- The editor and the shell around it between two keys. -/
structure LineInv (z : Zipper Byte) (s : Sys) : Prop where
  editing : Editing z s.term
  dir : s.term.currentDir.length < maxFilename * 2

theorem Started.lineInv (h : Started s) : LineInv .empty s := by
  refine ⟨⟨?_, fun _ hc => absurd hc List.not_mem_nil, h.promptLength⟩, ?_⟩
  · rw [h.bufferPos, h.cursorPos]
    exact Zipper.stored_empty h.buffer (by decide)
  · rw [h.dir]
    decide

/-- **One key**: the buffer follows the line. -/
theorem LineInv.step (h : LineInv z s) (hs : terminalRun s c = .ok s') : LineInv (lineKey z c) s' := by
  have hstep := terminalRun_step h.editing c
  generalize lineKey z c = z' at hstep ⊢
  generalize keyEffect s.term c = e at hstep
  generalize terminalRun s c = r at hstep hs
  cases hstep with
  | ignored hz =>
    cases hs
    exact hz ▸ h
  | moved hE =>
    cases hs
    exact ⟨hE, h.dir⟩
  | edited hE =>
    rw [editLine, redraw_eq hE] at hs
    cases hs
    exact ⟨hE, h.dir⟩
  | entered _ hz =>
    obtain ⟨s₁, h1, h2⟩ := bind_ok_iff.mp hs
    obtain ⟨-, hp, hdir⟩ := entered_ok (s := s.withVga (vgaPutchar s.vga newline)) h.editing h.dir h1
    rw [printf_prompt] at h2
    cases h2
    exact hz ▸ ⟨editing_clear hp, hdir⟩

theorem executeCommand_no_fault (h : Editing z s.term) (hdir : s.term.currentDir.length < maxFilename * 2) :
    executeCommand s ≠ .error inputFault := by
  have hlen : z.toList.length < terminalBufferSize := h.stored.length_toList ▸ h.stored.room
  rw [h.executeCommand]
  by_cases hne : z.toList = []
  · rw [if_pos hne]
    nofun
  · rw [if_neg hne]
    rcases runCommand_faults hlen hdir with hq | hfull
    · exact hq .inputBuffer trivial
    · rw [hfull]
      nofun

/-- **One key** never leaves the input buffer, and only a line entered can fault at all. -/
theorem LineInv.no_fault (h : LineInv z s) (c : Byte) :
    terminalRun s c ≠ .error inputFault ∧ (c ≠ newline → ∃ s', terminalRun s c = .ok s') := by
  have hstep := terminalRun_step h.editing c
  generalize lineKey z c = z' at hstep
  generalize keyEffect s.term c = e at hstep
  generalize terminalRun s c = r at hstep ⊢
  cases hstep with
  | ignored => exact ⟨nofun, fun _ => ⟨_, rfl⟩⟩
  | moved => exact ⟨nofun, fun _ => ⟨_, rfl⟩⟩
  | edited hE =>
    rw [editLine, redraw_eq hE]
    exact ⟨nofun, fun _ => ⟨_, rfl⟩⟩
  | entered hc =>
    refine ⟨?_, fun hne => absurd hc hne⟩
    have hexec := executeCommand_no_fault (s := s.withVga (vgaPutchar s.vga newline)) h.editing h.dir
    generalize executeCommand (s.withVga (vgaPutchar s.vga newline)) = x at hexec ⊢
    cases x with
    | error e => exact fun he => hexec (by cases he; rfl)
    | ok s₁ =>
      rw [Except.bind, printf_prompt]
      nofun

/-- What the editor's counters and its buffer say of the line. -/
structure EditorSpec (z : Zipper Byte) (s : Sys) : Prop where
  cursorPos : s.term.cursorPos = z.left.length
  bufferPos : s.term.bufferPos = z.left.length + z.right.length
  bounded : s.term.bufferPos ≤ terminalBufferSize - 1
  line : (List.range s.term.bufferPos).map s.term.inputBuffer = z.left ++ z.right
  zeros : ∀ j, s.term.bufferPos ≤ j → j < terminalBufferSize → s.term.inputBuffer j = 0
  inBounds : ∀ c, terminalRun s c ≠ .error inputFault ∧ (c ≠ newline → ∃ s', terminalRun s c = .ok s')
  seen : commandLine s.term = z.left ++ z.right
  executed : ∀ v, executeCommand (s.withVga v) =
    if z.left ++ z.right = [] then .ok (s.withVga v) else runCommand (s.withVga v) (z.left ++ z.right)

theorem LineInv.spec (h : LineInv z s) : EditorSpec z s := by
  have hst := h.editing.stored
  exact {
    cursorPos := hst.pos_eq
    bufferPos := hst.size_eq
    bounded := Nat.le_pred_of_lt hst.room
    line := h.editing.line
    zeros := fun j => hst.filler
    inBounds := h.no_fault
    seen := h.editing.commandLine
    executed := fun v => Editing.executeCommand (s := s.withVga v) h.editing }

/-- **The line editor refines the zipper**: after every run of keys from the prompt on, the buffer holds the
line of the zipper, the next key stays inside the buffer, and the command sees the line. -/
theorem editor_refines (mem : Int → UInt16) (cs : List Byte) :
    ∃ s₀, start mem = .ok s₀ ∧
      ∀ s, exec terminalRun s₀ cs = .ok s → EditorSpec (cs.foldl lineKey .empty) s := by
  obtain ⟨s₀, hstart, hs₀⟩ := start_ok mem
  refine ⟨s₀, hstart, fun s hrun => ?_⟩
  have hinv : LineInv (cs.foldl lineKey .empty) s :=
    exec_sim (f := lineKey) (R := LineInv) (fun _ _ _ _ h hs => h.step hs) hs₀.lineInv hrun
  exact hinv.spec

/-- `s`, `x`, left, `l`, left twice, delete, right, delete leave `l` with the gap behind it. -/
theorem editor_refines_sample : ∃ s₀ s, start (fun _ => 0) = .ok s₀ ∧
    exec terminalRun s₀ [115, 120, charLeft, 108, charLeft, charLeft, charDel, charRight, charDel] = .ok s ∧
    s.term.cursorPos = 1 ∧ commandLine s.term = str "l" := by
  obtain ⟨s₀, hs₀, hspec⟩ := editor_refines (fun _ => 0)
    [115, 120, charLeft, 108, charLeft, charLeft, charDel, charRight, charDel]
  have hrun : ((start fun _ => 0).bind fun s₀ => (exec terminalRun s₀
      [115, 120, charLeft, 108, charLeft, charLeft, charDel, charRight, charDel]).bind fun _ => .ok ()) =
      .ok () := by
    decide +kernel
  obtain ⟨s₀', hs₀', h1⟩ := bind_ok_iff.mp hrun
  cases hs₀.symm.trans hs₀'
  obtain ⟨s, hs, -⟩ := bind_ok_iff.mp h1
  exact ⟨s₀, s, hs₀, hs, (hspec s hs).cursorPos, (hspec s hs).seen⟩

end FoxOS
