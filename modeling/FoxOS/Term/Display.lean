import FoxOS.Term.Screen
import FoxOS.Vga.Cells

/-!
# FoxOS.Term.Display — the edited line and what the screen shows

`update_cursor_position` goes up from the row of the cursor by the rows of the whole line, so it assumes that
the cursor is in the last row of the line.  `MovesInLastRow` is this assumption for a key that moves the cursor;
per key it is exactly what keeps the cursor on its character (`arrow_iff`), and only a line in one row meets it
under all arrow keys (`arrows_iff`).  A line in one row is also drawn right: `RowInv` says that the row shows
the prompt and the line, with nothing else on the screen touched, and every key but Enter keeps it
(`RowInv.step`).
-/

namespace FoxOS

open Shift Runs

variable {z : Zipper Byte} {s s' : Sys} {c : Byte}

/-! ### Arrow keys -/

/-- The screen cursor is on the character of the editor's position, in a line whose prompt begins in row `R`. -/
structure OnChar (R : Int) (s : Sys) : Prop where
  x : s.vga.cursorX = ((s.term.promptLength + s.term.cursorPos) % vgaWidth : ℕ)
  y : s.vga.cursorY = R + lineRow s.term s.term.cursorPos

def IsArrow (c : Byte) : Prop := c = charLeft ∨ c = charRight

/-- The arrow key finds room to move. -/
def Moves (t : Term) (c : Byte) : Prop := c = charLeft ∧ 0 < t.cursorPos ∨ c = charRight ∧
    t.cursorPos < t.bufferPos

/-- If the arrow key moves the cursor, the cursor is in the last row of the line. -/
def MovesInLastRow (s : Sys) (c : Byte) : Prop :=
  Moves s.term c → lineRow s.term s.term.cursorPos = lineRow s.term s.term.bufferPos

/-- What an arrow key does. -/
theorem terminalRun_arrow (s : Sys) (hc : IsArrow c) :
    (¬ Moves s.term c ∧ terminalRun s c = .ok s) ∨
    ∃ pos, Moves s.term c ∧ (s.term.cursorPos ≤ s.term.bufferPos → pos ≤ s.term.bufferPos) ∧
      terminalRun s c = .ok (moveCursor s pos) := by
  have hne : charRight ≠ charLeft := by decide
  rcases hc with rfl | rfl
  · have hrun : terminalRun s charLeft =
        if 0 < s.term.cursorPos then .ok (moveCursor s (s.term.cursorPos - 1)) else .ok s := rfl
    by_cases hpos : 0 < s.term.cursorPos
    · exact .inr ⟨_, .inl ⟨rfl, hpos⟩, fun hle => by omega, hrun.trans (if_pos hpos)⟩
    · exact .inl ⟨fun hm => hm.elim (fun hl => hpos hl.2) fun hr => hne hr.1.symm, hrun.trans (if_neg hpos)⟩
  · have hrun : terminalRun s charRight =
        if s.term.cursorPos < s.term.bufferPos then .ok (moveCursor s (s.term.cursorPos + 1)) else .ok s := rfl
    by_cases hpos : s.term.cursorPos < s.term.bufferPos
    · exact .inr ⟨_, .inr ⟨rfl, hpos⟩, fun _ => hpos, hrun.trans (if_pos hpos)⟩
    · exact .inl ⟨fun hm => hm.elim (fun hl => hne hl.1) fun hr => hpos hr.2, hrun.trans (if_neg hpos)⟩

section Arrows

variable {R : Int} (h : OnChar R s)
include h

/-- **A cursor move** finds the character exactly from the last row of the line. -/
theorem onChar_moveCursor (pos : ℕ) :
    OnChar R (moveCursor s pos) ↔ lineRow s.term s.term.cursorPos = lineRow s.term s.term.bufferPos := by
  have hy : (moveCursor s pos).vga.cursorY =
      s.vga.cursorY - lineRow s.term s.term.bufferPos + lineRow s.term pos := rfl
  rw [h.y] at hy
  constructor
  · intro h'
    have hy' : (moveCursor s pos).vga.cursorY = R + lineRow s.term pos := h'.y
    omega
  · intro hrow
    refine ⟨rfl, ?_⟩
    show (moveCursor s pos).vga.cursorY = R + lineRow s.term pos
    omega

/-- **One arrow key**. -/
theorem arrow_iff (hc : IsArrow c) : MovesInLastRow s c ↔ ∀ s', terminalRun s c = .ok s' → OnChar R s' := by
  rcases terminalRun_arrow s hc with ⟨hstay, hrun⟩ | ⟨pos, hmoves, -, hrun⟩
  · refine ⟨fun _ s' hs => ?_, fun _ hm => absurd hm hstay⟩
    cases hrun.symm.trans hs
    exact h
  · rw [hrun]
    constructor
    · intro hlast s' hs
      cases hs
      exact (onChar_moveCursor h pos).mpr (hlast hmoves)
    · intro hall _
      exact (onChar_moveCursor h pos).mp (hall _ rfl)

end Arrows

/-- The line is in one row, with the cursor in it. -/
def OneRow (s : Sys) : Prop :=
  s.term.cursorPos ≤ s.term.bufferPos ∧ lineRow s.term s.term.bufferPos = 0

theorem OneRow.movesInLastRow (h : OneRow s) (c : Byte) : MovesInLastRow s c := by
  intro _
  have hle : lineRow s.term s.term.cursorPos ≤ lineRow s.term s.term.bufferPos :=
    Nat.div_le_div_right (Nat.add_le_add_left h.1 _)
  rw [h.2] at hle ⊢
  exact Nat.le_zero.mp hle

/-- Along the arrow keys a line in one row stays so, with the cursor on its character. -/
theorem OneRow.step {R : Int} (h : OneRow s) (hon : OnChar R s) (hc : IsArrow c) :
    ∃ s', terminalRun s c = .ok s' ∧ OneRow s' ∧ OnChar R s' := by
  have hnext := (arrow_iff hon hc).mp (h.movesInLastRow c)
  rcases terminalRun_arrow s hc with ⟨-, hrun⟩ | ⟨pos, -, hle, hrun⟩
  · exact ⟨s, hrun, h, hnext s hrun⟩
  · exact ⟨_, hrun, ⟨hle h.1, h.2⟩, hnext _ hrun⟩

theorem right_loses {R : Int} (hle : s.term.cursorPos ≤ s.term.bufferPos)
    (hrow : lineRow s.term s.term.cursorPos ≠ lineRow s.term s.term.bufferPos) (h : OnChar R s) :
    ∃ s', terminalRun s charRight = .ok s' ∧ ¬ OnChar R s' := by
  have hmoves : Moves s.term charRight :=
    .inr ⟨rfl, Nat.lt_of_le_of_ne hle fun heq => hrow (congrArg (lineRow s.term) heq)⟩
  rcases terminalRun_arrow s (c := charRight) (.inr rfl) with ⟨hstay, -⟩ | ⟨pos, -, -, hrun⟩
  · exact absurd hmoves hstay
  · exact ⟨_, hrun, fun hon => hrow ((onChar_moveCursor h pos).mp hon)⟩

/-- In a longer line some arrow keys lose the character: left up to the row before the last one, then right. -/
theorem arrows_lose {R : Int} (hp : s.term.promptLength < vgaWidth) (hle : s.term.cursorPos ≤ s.term.bufferPos)
    (hlong : lineRow s.term s.term.bufferPos ≠ 0) (h : OnChar R s) :
    ∃ cs s', (∀ c ∈ cs, IsArrow c) ∧ exec terminalRun s cs = .ok s' ∧ ¬ OnChar R s' := by
  -- by induction on the position of the cursor
  induction hn : s.term.cursorPos generalizing s with
  | zero =>
    have hfirst : lineRow s.term s.term.cursorPos = 0 := by
      rw [hn]
      exact Nat.div_eq_of_lt hp
    obtain ⟨s', hrun, hlost⟩ := right_loses hle (by rw [hfirst]; exact hlong.symm) h
    exact ⟨[charRight], s', by simp [IsArrow], by rw [exec_cons_ok hrun, exec_nil], hlost⟩
  | succ n ih =>
    by_cases hrow : lineRow s.term s.term.cursorPos = lineRow s.term s.term.bufferPos
    · have hrun : terminalRun s charLeft = .ok (moveCursor s n) := by
        have hpos : s.term.cursorPos > 0 := by omega
        refine (if_pos hpos).trans ?_
        rw [hn]
        rfl
      obtain ⟨cs, s', hcs, hcs', hlost⟩ :=
        ih (s := moveCursor s n) hp (show n ≤ s.term.bufferPos by omega) hlong
        ((onChar_moveCursor h n).mpr hrow) rfl
      refine ⟨charLeft :: cs, s', fun c hc => ?_, by rw [exec_cons_ok hrun, hcs'], hlost⟩
      rcases List.mem_cons.mp hc with rfl | hc
      · exact .inl rfl
      · exact hcs c hc
    · obtain ⟨s', hrun, hlost⟩ := right_loses hle hrow h
      exact ⟨[charRight], s', by simp [IsArrow], by rw [exec_cons_ok hrun, exec_nil], hlost⟩

/-- **Arrow keys**: along a run the cursor stays on its character exactly while every move starts in the last
row of the line; and it does so along all runs exactly when the line is in one row. -/
theorem arrows_iff (R : Int) (s : Sys) (hp : s.term.promptLength < vgaWidth)
    (hle : s.term.cursorPos ≤ s.term.bufferPos) (h : OnChar R s) :
    (∀ cs, (∀ c ∈ cs, IsArrow c) → (AllSteps terminalRun MovesInLastRow s cs ↔
      AllSteps terminalRun (fun s c => ∀ s', terminalRun s c = .ok s' → OnChar R s') s cs)) ∧
    ((∀ cs, (∀ c ∈ cs, IsArrow c) → ∃ s', exec terminalRun s cs = .ok s' ∧ OnChar R s') ↔
      s.term.promptLength + s.term.bufferPos < vgaWidth) := by
  refine ⟨fun cs hcs => ?_, fun hall => ?_, fun hshort cs hcs => ?_⟩
  · exact allSteps_congr (I := OnChar R) (P := IsArrow) (fun _ _ hon hc => arrow_iff hon hc)
      (fun _ _ s₁ hon hc hlast hs => (arrow_iff hon hc).mp hlast s₁ hs) h hcs
  · by_contra hlong
    have hrows : lineRow s.term s.term.bufferPos ≠ 0 :=
      Nat.pos_iff_ne_zero.mp (Nat.div_pos (Nat.le_of_not_lt hlong) (by decide))
    obtain ⟨cs, s', hcs, hrun, hlost⟩ := arrows_lose hp hle hrows h
    obtain ⟨s₁, hrun₁, hon⟩ := hall cs hcs
    cases hrun.symm.trans hrun₁
    exact hlost hon
  · obtain ⟨s', hrun, -, hon⟩ := exec_total (I := fun s => OneRow s ∧ OnChar R s) (P := IsArrow)
      (fun _ _ hI hc => hI.1.step hI.2 hc) ⟨⟨hle, Nat.div_eq_of_lt hshort⟩, h⟩ hcs
    exact ⟨s', hrun, hon⟩

/-- The editor with a line of `n` letters on the screen, the prompt in row `row` and the cursor on position
`pos`. -/
def lineState (n pos row : ℕ) : Sys where
  vga := {
    buffer := fun i => vgaEntry (if i < (row * 80 : ℕ) then space else
      (terminalPrompt ++ List.replicate n 97).getD (i - (row * 80 : ℕ)).toNat space) 7
    cursorX := ((7 + pos) % 80 : ℕ), cursorY := (row + (7 + pos) / 80 : ℕ), color := 7
    cursorLow := 0, cursorHigh := 0, stores := [] }
  term := { zeroTerm with
    inputBuffer := fun i => if i < n then 97 else 0, bufferPos := n, promptLength := 7, cursorPos := pos }
  fs := fsInit zeroFiles

theorem onChar_lineState (n pos row : ℕ) : OnChar row (lineState n pos row) :=
  ⟨rfl, Int.natCast_add _ _⟩

theorem arrows_sample : ∃ s', exec terminalRun (lineState 3 3 5) [charLeft, charLeft, charRight] = .ok s' ∧
    OnChar 5 s' :=
  (arrows_iff 5 (lineState 3 3 5) (by decide) (by decide) (onChar_lineState 3 3 5)).2.mpr (by decide)
    [charLeft, charLeft, charRight] (by simp [IsArrow])

/-- 73 characters behind the prompt fill row 5 and end at row 6.  From the end of the line, two keys to the left
put the cursor into row 4, above the prompt. -/
theorem arrows_leave_line : OnChar 5 (lineState 73 73 5) ∧
    ∃ s', exec terminalRun (lineState 73 73 5) [charLeft, charLeft] = .ok s' ∧ s'.term.cursorPos = 71 ∧
      s'.vga.cursorX = 78 ∧ s'.vga.cursorY = 4 ∧ ¬ OnChar 5 s' := by
  refine ⟨onChar_lineState 73 73 5, moveCursor (moveCursor (lineState 73 73 5) 72) 71, rfl, rfl, rfl, rfl, ?_⟩
  intro hon
  exact absurd hon.y (by decide)

/-! ### A line in one row -/

/-- The cells of row `r`. -/
def InRow (r : ℕ) : Int → Prop := Span 0 r 80

/-- Row `r` shows the prompt, the line and blanks up to the last column. -/
def RowShows (v : Vga) (r : ℕ) (line : List Byte) : Prop :=
  ∀ x < vgaWidth, shownChar (v.buffer (r * vgaWidth + x : ℕ)) = (terminalPrompt ++ line).getD x space

theorem Printable.lt (h : Printable c) : c < 128 := UInt8.lt_of_le_of_lt h.2 (by decide)

theorem printable_getD {line : List Byte} (hline : ∀ c ∈ line, Printable c) (k : ℕ) :
    Printable (line.getD k space) := by
  by_cases hk : k < line.length
  · rw [List.getD_eq_getElem _ _ hk]
    exact hline _ (List.getElem_mem hk)
  · rw [List.getD_eq_default _ _ (Nat.le_of_not_lt hk)]
    decide

/-- Column by column: the prompt, then the line. -/
theorem rowShows_iff {v : Vga} {r : ℕ} {line : List Byte} : RowShows v r line ↔
    (∀ x < 7, shownChar (v.buffer (r * 80 + x : ℕ)) = terminalPrompt.getD x space) ∧
    ∀ k < 73, shownChar (v.buffer (r * 80 + 7 + k : ℕ)) = line.getD k space := by
  have hprompt : terminalPrompt.length = 7 := rfl
  constructor
  · intro h
    refine ⟨fun x hx => ?_, fun k hk => ?_⟩
    · rw [← List.getD_append _ line _ _ (hx.trans_eq hprompt.symm)]
      exact h x (show x < 80 by omega)
    · have hk' := h (7 + k) (show 7 + k < 80 by omega)
      rw [List.getD_append_right _ _ _ _ (by omega), hprompt, Nat.add_sub_cancel_left, ← Nat.add_assoc] at hk'
      exact hk'
  · rintro ⟨hleft, hright⟩ x hx
    have hx' : x < 80 := hx
    by_cases hin : x < 7
    · rw [List.getD_append _ _ _ _ (hin.trans_eq hprompt.symm)]
      exact hleft x hin
    · rw [List.getD_append_right _ _ _ _ (by omega), hprompt, ← hright (x - 7) (by omega)]
      show shownChar (v.buffer (r * 80 + x : ℕ)) = _
      rw [show r * 80 + 7 + (x - 7) = r * 80 + x by omega]

/-- **A line drawn** behind the prompt: the row shows it when the old line was at most one character longer. -/
theorem rowShows_drawLine {v : Vga} {r : ℕ} {old line : List Byte} (hr : r < 25) (h : RowShows v r old)
    (hline : ∀ c ∈ line, Printable c) (hold : old.length ≤ line.length + 1) (hlen : line.length ≤ 71) :
    RowShows (drawLine v (7 : ℕ) r (line.length + 1) line) r line := by
  obtain ⟨honly, hcells, -, -⟩ := drawLine_in_row (v := v) (x := 7) (y := r) (n := line.length + 1)
    (fun c hc => (hline c hc).plain) (Nat.le_succ _) (by omega) hr
  obtain ⟨hleft, hright⟩ := rowShows_iff.mp h
  refine rowShows_iff.mpr ⟨fun x hx => ?_, fun k hk => ?_⟩
  · rw [honly.others _ (by unfold Span; omega), hleft x hx]
  · by_cases hin : k < line.length + 1
    · rw [hcells k hin, shownChar_vgaEntry (printable_getD hline k).lt]
    · -- behind the cells drawn both lines are over
      rw [honly.others _ (by unfold Span; omega), hright k hk, List.getD_eq_default _ _ (by omega),
        List.getD_eq_default _ _ (by omega)]

/-- A line of at most 71 characters behind the prompt in row `r`, on a screen that was `v` otherwise. -/
structure RowInv (v : Vga) (r : ℕ) (z : Zipper Byte) (s : Sys) : Prop where
  editing : Editing z s.term
  short : s.term.bufferPos ≤ 71
  shown : RowShows s.vga r z.toList
  frame : OnlyAt (InRow r) v s.vga
  x : s.vga.cursorX = (terminalPrompt.length + s.term.cursorPos : ℕ)
  y : s.vga.cursorY = r

/-- Where the cursor is put in a short line. -/
theorem updateCursorPosition_short {r : ℕ} (h : Editing z s.term) (hshort : s.term.bufferPos ≤ 71)
    (hy : s.vga.cursorY = r) : (updateCursorPosition s).vga =
      vgaSetCursor s.vga (terminalPrompt.length + s.term.cursorPos : ℕ) r := by
  have hle := h.stored.pos_le
  have hcol : (terminalPrompt.length + s.term.cursorPos) % vgaWidth =
      terminalPrompt.length + s.term.cursorPos :=
    Nat.mod_eq_of_lt (show 7 + s.term.cursorPos < 80 by omega)
  rw [updateCursorPosition_vga, firstRow, lineRow_of_short h.prompt (by omega),
    lineRow_of_short h.prompt (by omega), h.prompt, hcol, hy]
  simp

/-- An edit takes at most one character away. -/
theorem keyEffect_edited {t : Term} {size pos : ℕ} (h : keyEffect t c = .edited size pos) :
    t.bufferPos ≤ size + 1 := by
  unfold keyEffect at h
  split_ifs at h
  all_goals
    cases h
    omega

section RowInv

variable {v : Vga} {r pos : ℕ} {z' : Zipper Byte}

theorem RowInv.moved (h : RowInv v r z s) (hE : Editing z' { s.term with cursorPos := pos }) :
    RowInv v r z' (moveCursor s pos) := by
  have hvga := updateCursorPosition_short
    (s := { s with term := { s.term with cursorPos := pos } }) hE h.short h.y
  have hline : z.toList = z'.toList := h.editing.line.symm.trans hE.line
  refine ⟨hE, h.short, ?_, ?_, ?_, ?_⟩
  · rw [← hline]
    exact h.shown
  · exact h.frame.setCursor _ _
  · exact congrArg Vga.cursorX hvga
  · exact congrArg Vga.cursorY hvga

/-- **A redraw** of a short line over one that is at most one character longer. -/
theorem redraw_short {old : List Byte} (hr : r < 25) (hE : Editing z s.term) (hshort : s.term.bufferPos ≤ 71)
    (hy : s.vga.cursorY = r) (hshown : RowShows s.vga r old) (hold : old.length ≤ s.term.bufferPos + 1)
    (hframe : OnlyAt (InRow r) v s.vga) : ∃ s', redrawInputLine s = .ok s' ∧ RowInv v r z s' := by
  have hlen : z.toList.length = s.term.bufferPos := hE.stored.length_toList
  have hprompt : s.term.promptLength = 7 := hE.prompt
  have hplace : firstRow s s.term.bufferPos = r := by
    rw [firstRow, lineRow_of_short hE.prompt (by omega), hy]
    simp
  have hredraw := redraw_eq hE
  rw [hplace, hprompt, show 7 % vgaWidth = 7 from rfl, ← hlen] at hredraw
  -- the console once the line is drawn
  obtain ⟨honly, -, -, hy'⟩ := drawLine_in_row (v := s.vga) (x := 7) (y := r) (n := z.toList.length + 1)
    (fun c hc => (hE.printable c hc).plain) (Nat.le_succ _) (by omega) hr
  have hdrawn := rowShows_drawLine hr hshown hE.printable (by omega) (by omega)
  generalize drawLine s.vga (7 : ℕ) r (z.toList.length + 1) z.toList = w at hredraw honly hy' hdrawn
  have hvga := updateCursorPosition_short (s := s.withVga w) hE hshort hy'
  refine ⟨_, hredraw, hE, hshort, hdrawn, ?_, congrArg Vga.cursorX hvga, congrArg Vga.cursorY hvga⟩
  exact (hframe.trans (honly.mono fun i hi => by unfold InRow Span at *; omega)).setCursor _ _

/-- **One key** that does not enter the line, when the line stays short. -/
theorem RowInv.step (h : RowInv v r z s) (hr : r < 25) (hc : c ≠ newline)
    (hshort : ∀ s', terminalRun s c = .ok s' → s'.term.bufferPos ≤ 71) :
    ∃ s', terminalRun s c = .ok s' ∧ RowInv v r (lineKey z c) s' := by
  have hstep := terminalRun_step h.editing c
  have hsize : ∀ size pos, keyEffect s.term c = .edited size pos → s.term.bufferPos ≤ size + 1 :=
    fun _ _ => keyEffect_edited
  generalize lineKey z c = z' at hstep ⊢
  generalize keyEffect s.term c = e at hstep hsize
  generalize terminalRun s c = res at hstep hshort ⊢
  cases hstep with
  | ignored hz => exact ⟨s, rfl, hz ▸ h⟩
  | moved hE => exact ⟨_, rfl, h.moved hE⟩
  | @edited buffer size pos hE =>
    have hsmall : size ≤ 71 := by
      obtain ⟨s', hs', hterm⟩ : ∃ s', editLine s buffer size pos = .ok s' ∧ s'.term.bufferPos = size :=
        ⟨_, redraw_eq hE, rfl⟩
      rw [← hterm]
      exact hshort s' hs'
    refine redraw_short (s := { s with term := { s.term with
      inputBuffer := buffer, bufferPos := size, cursorPos := pos } }) hr hE hsmall h.y h.shown ?_ h.frame
    rw [h.editing.stored.length_toList]
    exact hsize _ _ rfl
  | entered heq => exact absurd heq hc

/-- **Runs** without Enter along which the line stays short. -/
theorem RowInv.run {cs : List Byte} (h : RowInv v r z s) (hr : r < 25) (hcs : ∀ c ∈ cs, c ≠ newline)
    (hshort : ∀ pre s', pre <+: cs → exec terminalRun s pre = .ok s' → s'.term.bufferPos ≤ 71) :
    ∃ s', exec terminalRun s cs = .ok s' ∧ RowInv v r (cs.foldl lineKey z) s' := by
  induction cs generalizing z s with
  | nil => exact ⟨s, rfl, h⟩
  | cons c cs ih =>
    obtain ⟨s₁, hs₁, h₁⟩ := h.step hr (hcs c (by simp)) fun s' hs' =>
      hshort [c] s' ⟨cs, rfl⟩ (by rw [exec_cons_ok hs', exec_nil])
    obtain ⟨s', hs', h'⟩ := ih h₁ (fun d hd => hcs d (by simp [hd])) fun pre s' hpre hs' =>
      hshort (c :: pre) s' (List.cons_prefix_cons.mpr ⟨rfl, hpre⟩) (by rw [exec_cons_ok hs₁, hs'])
    exact ⟨s', by rw [exec_cons_ok hs₁, hs'], h'⟩

end RowInv

/-- What the screen shows of the line in row `r` after the keys `keys`, on a screen that was `v` when the prompt
was printed. -/
structure RowSpec (v : Vga) (r : ℕ) (keys : List Byte) (s : Sys) : Prop where
  editing : Editing (keys.foldl lineKey .empty) s.term
  shown : RowShows s.vga r ((List.range s.term.bufferPos).map s.term.inputBuffer)
  others : ∀ i, ¬ InRow r i → s.vga.buffer i = v.buffer i
  noScroll : ∃ new, s.vga.stores = new ++ v.stores ∧ ∀ i ∈ new, InRow r i
  x : s.vga.cursorX = (terminalPrompt.length + s.term.cursorPos : ℕ)
  y : s.vga.cursorY = r

theorem RowInv.spec {v : Vga} {r : ℕ} {keys : List Byte} (h : RowInv v r (keys.foldl lineKey .empty) s) :
    RowSpec v r keys s :=
  ⟨h.editing, h.editing.line ▸ h.shown, h.frame.others, h.frame.log, h.x, h.y⟩

/-- **What is shown is what is edited**, in one row: from the printed prompt on and as long as the line has at
most 71 characters, after every key but Enter the line in the buffer is the one the keys have edited, the row
shows it, and nothing else on the screen changes. -/
theorem row_shows_line (s : Sys) (r : ℕ) (cs : List Byte) (hedit : Editing .empty s.term) (hr : r < vgaHeight)
    (hshown : RowShows s.vga r []) (hx : s.vga.cursorX = terminalPrompt.length) (hy : s.vga.cursorY = r)
    (hcs : ∀ c ∈ cs, c ≠ newline)
    (hshort : ∀ pre s', pre <+: cs → exec terminalRun s pre = .ok s' → s'.term.bufferPos ≤ 71) :
    ∀ pre, pre <+: cs → ∃ s', exec terminalRun s pre = .ok s' ∧ RowSpec s.vga r pre s' := by
  intro pre hpre
  have hbp : s.term.bufferPos = 0 := hedit.stored.size_eq
  have hcp : s.term.cursorPos = 0 := hedit.stored.pos_eq
  have hinv : RowInv s.vga r .empty s :=
    ⟨hedit, by omega, hshown, .refl, by rw [hx, hcp, Nat.add_zero], hy⟩
  obtain ⟨s', hs', h'⟩ := hinv.run hr (fun c hc => hcs c (hpre.subset hc))
    fun p s' hp => hshort p s' (hp.trans hpre)
  exact ⟨s', hs', h'.spec⟩

/-- `l`, `x`, backspace, `s`, left in row 3: the line is `ls` with the cursor between the two. -/
theorem row_shows_line_sample :
    [108, 120, backspace, 115, charLeft].foldl lineKey .empty = ⟨str "l", str "s"⟩ ∧
    ∃ s', exec terminalRun (lineState 0 0 3) [108, 120, backspace, 115, charLeft] = .ok s' ∧
      RowSpec (lineState 0 0 3).vga 3 [108, 120, backspace, 115, charLeft] s' := by
  have hedit : Editing .empty (lineState 0 0 3).term :=
    ⟨Zipper.stored_empty (fun _ _ => rfl) (by decide), fun _ h => absurd h List.not_mem_nil, rfl⟩
  refine ⟨rfl, row_shows_line (lineState 0 0 3) 3 [108, 120, backspace, 115, charLeft] hedit
    (by decide) ?_ rfl rfl
    (by simp [newline, backspace, charLeft]) (fun pre s' hpre hs' => ?_) _ (List.prefix_refl _)⟩
  · unfold RowShows
    decide +kernel
  · have hline : LineInv (pre.foldl lineKey .empty) s' :=
      exec_sim (f := lineKey) (R := LineInv) (fun _ _ _ _ h hs => h.step hs) ⟨hedit, by decide⟩ hs'
    have hlen : ∀ n ≤ 5,
        (([108, 120, backspace, 115, charLeft].take n).foldl lineKey .empty).toList.length ≤ 71 := by
      decide +kernel
    rw [← hline.editing.stored.length_toList, List.prefix_iff_eq_take.mp hpre]
    exact hlen _ hpre.length_le

end FoxOS
