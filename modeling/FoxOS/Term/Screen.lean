import FoxOS.Term.Editor

/-!
# FoxOS.Term.Screen — where the line editor draws

`vga_putchar` keeps the cursor on the screen, but the editor computes rows itself and hands them to
`vga_set_cursor`, which checks nothing: the first row of the line is the cursor row minus the rows of the whole
line, whatever row of the line the cursor really is in.  `RowsFit` says that the row a key computes is not
negative.  Per key this is exactly what screen safety needs (`rowsFit_iff`), and so it is for whole runs
(`screen_safe`); a line of up to 72 characters always fits (`rowsFit_of_short`).
-/

namespace FoxOS

open Shift Runs

variable {z : Zipper Byte} {s s' : Sys} {c : Byte}

/-- The row that the key computes is on the screen. -/
def RowsFit (s : Sys) (c : Byte) : Prop :=
  match keyEffect s.term c with
  | .ignored => True
  | .moved pos => 0 ≤ firstRow s s.term.bufferPos + lineRow s.term pos
  | .edited size _ => 0 ≤ firstRow s size
  | .entered => True

/-! ### One key -/

theorem Printable.plain (h : Printable c) : Plain c :=
  ⟨h.ne (by decide), h.ne (by decide), h.ne (by decide), h.ne (by decide)⟩

theorem updateCursorPosition_vga (s : Sys) : (updateCursorPosition s).vga = vgaSetCursor s.vga
    ((s.term.promptLength + s.term.cursorPos) % vgaWidth : ℕ)
    (firstRow s s.term.bufferPos + lineRow s.term s.term.cursorPos) := rfl

section Update

variable (h : Editing z s.term)
include h

theorem Editing.lineRow_le : lineRow s.term s.term.cursorPos ≤ lineRow s.term s.term.bufferPos :=
  Nat.div_le_div_right (Nat.add_le_add_left h.stored.pos_le _)

/-- **Placing the cursor**: safe exactly when the row is not negative. -/
theorem update_safe_iff (hs : s.vga.StoresOk) (hy : s.vga.cursorY < vgaHeight) :
    (updateCursorPosition s).vga.Safe ↔ 0 ≤ firstRow s s.term.bufferPos + lineRow s.term s.term.cursorPos := by
  rw [updateCursorPosition_vga]
  constructor
  · intro hsafe
    exact hsafe.y.1
  · intro hrow
    have hle := h.lineRow_le
    refine safe_setCursor hs ⟨Int.natCast_nonneg _, ?_⟩ ⟨hrow, ?_⟩
    · exact Int.ofNat_lt.mpr (Nat.mod_lt _ (by decide))
    · unfold firstRow
      omega

end Update

section Redraw

variable (h : Editing z s.term) (hv : s.vga.Safe)
include h hv

/-- The state after a redraw, before the cursor is placed. -/
theorem drawn_row : (drawLine s.vga (s.term.promptLength % vgaWidth : ℕ) (firstRow s s.term.bufferPos)
    (s.term.bufferPos + 1) z.toList).cursorY = s.vga.cursorY := by
  have hy := hv.y.2
  have hprompt : s.term.promptLength = 7 := h.prompt
  rw [height_eq] at hy
  rw [drawLine_row (fun b hb => (h.printable b hb).plain), h.stored.length_toList, firstRow, lineRow, hprompt]
  · simp only [vgaWidth]
    omega
  · rw [hprompt]
    decide
  · rw [firstRow, height_eq]
    omega

/-- **A redraw** ends in the row of the cursor position; it is safe exactly when it starts on the screen. -/
theorem redraw_spec (hs : redrawInputLine s = .ok s') :
    s'.vga.cursorY = firstRow s s.term.bufferPos + lineRow s.term s.term.cursorPos ∧
    firstRow s s.term.bufferPos * vgaWidth + (s.term.promptLength % vgaWidth : ℕ) ∈ s'.vga.stores ∧
    (s'.vga.Safe ↔ 0 ≤ firstRow s s.term.bufferPos) := by
  have hx : ((s.term.promptLength % vgaWidth : ℕ) : Int) < vgaWidth :=
    Int.ofNat_lt.mpr (Nat.mod_lt _ (by decide))
  have hy : firstRow s s.term.bufferPos < vgaHeight := by
    have := hv.y.2
    unfold firstRow
    omega
  -- the console once the line is drawn
  obtain ⟨v, hv', hrow, hfirst, hsafe⟩ : ∃ v,
      redrawInputLine s = .ok (updateCursorPosition (s.withVga v)) ∧ v.cursorY = s.vga.cursorY ∧
      firstRow s s.term.bufferPos * vgaWidth + (s.term.promptLength % vgaWidth : ℕ) ∈ v.stores ∧
      (0 ≤ firstRow s s.term.bufferPos → v.Safe) :=
    ⟨_, redraw_eq h, drawn_row h hv, drawLine_stores fun b hb => (h.printable b hb).plain,
      fun h0 => safe_drawLine hv.stores ⟨Int.natCast_nonneg _, hx⟩ ⟨h0, hy⟩⟩
  have hfr : firstRow (s.withVga v) s.term.bufferPos = firstRow s s.term.bufferPos :=
    congrArg (fun y => y - (lineRow s.term s.term.bufferPos : Int)) hrow
  obtain rfl : updateCursorPosition (s.withVga v) = s' := Except.ok.inj (hv'.symm.trans hs)
  refine ⟨?_, hfirst, fun hend => ?_, fun h0 => ?_⟩
  · rw [updateCursorPosition_vga, setCursor_y, ← hfr]
    rfl
  · have hcell := (hend.stores _ hfirst).1
    rw [width_eq] at hcell hx
    omega
  · refine (update_safe_iff (s := s.withVga v) h (hsafe h0).stores (hsafe h0).y.2).mpr ?_
    show 0 ≤ firstRow (s.withVga v) s.term.bufferPos + lineRow s.term s.term.cursorPos
    rw [hfr]
    omega

end Redraw

/-- The prompt after a line entered. -/
theorem safe_entered (h : LineInv z s) (hv : s.vga.Safe)
    (hs : (executeCommand (s.withVga (vgaPutchar s.vga newline))).bind (fun s =>
      Sys.printf { s with term := clearBuffer s.term } terminalPrompt []) = .ok s') : s'.vga.Safe := by
  obtain ⟨s₁, h1, h2⟩ := bind_ok_iff.mp hs
  obtain ⟨hdraws, -, -⟩ := entered_ok (s := s.withVga (vgaPutchar s.vga newline)) h.editing h.dir h1
  exact (printf_ok h2).draws.safe (hdraws.safe (safe_putchar hv newline))

/-- **One key**: the rows it computes fit exactly when it leaves the screen safe. -/
theorem rowsFit_iff (h : LineInv z s) (hv : s.vga.Safe) (c : Byte) :
    RowsFit s c ↔ ∀ s', terminalRun s c = .ok s' → s'.vga.Safe := by
  have hstep := terminalRun_step h.editing c
  unfold RowsFit
  generalize lineKey z c = z' at hstep
  generalize keyEffect s.term c = e at hstep ⊢
  generalize terminalRun s c = r at hstep ⊢
  cases hstep with
  | ignored _ => exact ⟨fun _ s' hs => by cases hs; exact hv, fun _ => trivial⟩
  | @moved pos hE =>
    have hiff := update_safe_iff (s := { s with term := { s.term with cursorPos := pos } }) hE hv.stores hv.y.2
    exact ⟨fun hfit s' hs => by cases hs; exact hiff.mpr hfit, fun hall => hiff.mp (hall _ rfl)⟩
  | @edited buffer size pos hE =>
    obtain ⟨s', hs'⟩ : ∃ s', editLine s buffer size pos = .ok s' := ⟨_, redraw_eq hE⟩
    have hiff := (redraw_spec (s := { s with term := { s.term with
      inputBuffer := buffer, bufferPos := size, cursorPos := pos } }) hE hv hs').2.2
    exact ⟨fun hfit s₁ hs => by cases hs'.symm.trans hs; exact hiff.mpr hfit, fun hall => hiff.mp (hall _ hs')⟩
  | entered _ _ => exact ⟨fun _ s' hs => safe_entered h hv hs, fun _ => trivial⟩

/-! ### Short lines -/

theorem lineRow_of_short {t : Term} (hp : t.promptLength = terminalPrompt.length) {n : ℕ} (hn : n ≤ 72) :
    lineRow t n = 0 := by
  have hprompt : t.promptLength = 7 := hp
  rw [lineRow, hprompt]
  exact Nat.div_eq_of_lt (show 7 + n < 80 by omega)

/-- A line that fits into the row of the prompt, also with one more character. -/
theorem rowsFit_of_short (h : Editing z s.term) (hv : s.vga.Safe) (hshort : s.term.bufferPos ≤ 71) (c : Byte) :
    RowsFit s c := by
  have hy := hv.y.1
  have hrow : ∀ n ≤ 72, 0 ≤ firstRow s n := by
    intro n hn
    rw [firstRow, lineRow_of_short h.prompt hn]
    omega
  unfold RowsFit keyEffect
  split_ifs
  all_goals first
    | exact trivial
    | exact Int.add_nonneg (hrow _ (by omega)) (Int.natCast_nonneg _)
    | exact hrow _ (by omega)

/-- **Short lines**: keys under which the line never passes 71 characters compute rows that fit. -/
theorem rowsFit_short_lines {cs : List Byte}
    (hshort : ∀ n < cs.length, ((cs.take n).foldl lineKey z).toList.length ≤ 71) (h : LineInv z s)
    (hv : s.vga.Safe) : AllSteps terminalRun RowsFit s cs := by
  induction cs generalizing z s with
  | nil => trivial
  | cons c cs ih =>
    have hfit : RowsFit s c := by
      refine rowsFit_of_short h.editing hv ?_ c
      rw [← h.editing.stored.length_toList]
      exact hshort 0 (Nat.succ_pos _)
    refine ⟨hfit, fun s₁ hs => ih (fun n hn => ?_) (h.step hs) ((rowsFit_iff h hv c).mp hfit s₁ hs)⟩
    exact hshort (n + 1) (Nat.succ_lt_succ hn)

/-! ### Characters typed -/

theorem keyEffect_printable {t : Term} (hc : Printable c) (hroom : t.bufferPos < terminalBufferSize - 1) :
    keyEffect t c = .edited (t.bufferPos + 1) (t.cursorPos + 1) := by
  rw [keyEffect, if_neg (hc.ne (by decide)), if_neg (hc.ne (by decide)), if_neg (hc.ne (by decide)),
    if_neg (hc.ne (by decide)), if_neg (hc.ne (by decide)), if_neg (hc.ne (by decide)), if_pos ⟨hroom, hc⟩]

theorem lineKey_printable (hc : Printable c) : lineKey z c = z.insert (terminalBufferSize - 1) c := by
  rw [lineKey, if_neg (hc.ne (by decide)), if_neg (hc.ne (by decide)), if_neg (hc.ne (by decide)),
    if_neg (hc.ne (by decide)), if_neg (hc.ne (by decide)), if_pos hc]

/-- **A character typed**: the row of the cursor, and the first store of the redraw. -/
theorem printable_step (h : LineInv z s) (hv : s.vga.Safe) (hc : Printable c)
    (hroom : s.term.bufferPos < terminalBufferSize - 1) : ∃ s', terminalRun s c = .ok s' ∧
      s'.vga.cursorY = firstRow s (s.term.bufferPos + 1) + lineRow s.term (s.term.cursorPos + 1) ∧
      firstRow s (s.term.bufferPos + 1) * vgaWidth + (s.term.promptLength % vgaWidth : ℕ) ∈ s'.vga.stores := by
  have hstep := terminalRun_step h.editing c
  rw [keyEffect_printable hc hroom] at hstep
  generalize lineKey z c = z' at hstep
  generalize terminalRun s c = r at hstep ⊢
  cases hstep with
  | @edited buffer _ _ hE =>
    obtain ⟨hrow, hstore, -⟩ := redraw_spec (s := { s with term := { s.term with
      inputBuffer := buffer, bufferPos := s.term.bufferPos + 1, cursorPos := s.term.cursorPos + 1 } })
      hE hv (redraw_eq hE)
    exact ⟨_, redraw_eq hE, hrow, hstore⟩

/-- Characters typed at the end of a short line stay in the row of the prompt. -/
theorem typed_short {left cs : List Byte} (hcs : ∀ c ∈ cs, Printable c) (h : LineInv ⟨left, []⟩ s)
    (hv : s.vga.Safe) (hlen : left.length + cs.length ≤ 72) :
    ∃ s', exec terminalRun s cs = .ok s' ∧ LineInv ⟨left ++ cs, []⟩ s' ∧ s'.vga.Safe ∧
      s'.vga.cursorY = s.vga.cursorY := by
  induction cs generalizing s left with
  | nil => exact ⟨s, rfl, by rwa [List.append_nil], hv, rfl⟩
  | cons c cs ih =>
    have hc := hcs c (by simp)
    have hbp : s.term.bufferPos = left.length := h.editing.stored.size_eq
    have hcp : s.term.cursorPos = left.length := h.editing.stored.pos_eq
    rw [List.length_cons] at hlen
    obtain ⟨s₁, hs₁, hrow, -⟩ := printable_step h hv hc (by rw [hbp]; show _ < 255; omega)
    have hkey : lineKey ⟨left, []⟩ c = ⟨left ++ [c], []⟩ := by
      rw [lineKey_printable hc, Zipper.insert, if_pos]
      show left.length + 0 < 255
      omega
    have hline : LineInv ⟨left ++ [c], []⟩ s₁ := hkey ▸ h.step hs₁
    have hv₁ : s₁.vga.Safe :=
      (rowsFit_iff h hv c).mp (rowsFit_of_short h.editing hv (by omega) c) s₁ hs₁
    rw [firstRow, lineRow_of_short h.editing.prompt (by omega),
      lineRow_of_short h.editing.prompt (by omega)] at hrow
    obtain ⟨s', hs', hline', hv', hrow'⟩ := ih (fun d hd => hcs d (by simp [hd])) hline hv₁
      (by rw [List.length_append, List.length_singleton]; omega)
    refine ⟨s', ?_, ?_, hv', ?_⟩
    · rw [exec_cons_ok hs₁, hs']
    · rwa [List.append_assoc] at hline'
    · rw [hrow', hrow]
      simp

theorem runCommand_clear (s : Sys) : runCommand s (str "clear") = .ok (s.withVga (vgaClear s.vga)) := by
  have hclear : commandOf (str "clear") = .clear := by decide +kernel
  rw [runCommand, hclear]

/-- The line `clear` entered: the prompt is in the first row. -/
theorem clear_entered (h : LineInv z s) (hz : z.toList = str "clear") :
    ∃ s', terminalRun s newline = .ok s' ∧ s'.vga.cursorY = 0 := by
  have hstep := terminalRun_step h.editing newline
  rw [show keyEffect s.term newline = .entered from rfl] at hstep
  generalize lineKey z newline = z' at hstep
  generalize terminalRun s newline = r at hstep ⊢
  cases hstep with
  | entered _ _ =>
    rw [Editing.executeCommand (s := s.withVga (vgaPutchar s.vga newline)) h.editing, hz, if_neg (by decide),
      runCommand_clear, Except.bind, printf_prompt]
    obtain ⟨hx, hy⟩ := clear_cursor (s.withVga (vgaPutchar s.vga newline)).vga
    generalize vgaClear (s.withVga (vgaPutchar s.vga newline)).vga = v at hx hy ⊢
    refine ⟨_, rfl, ?_⟩
    show (putChars v terminalPrompt).cursorY = 0
    have hplain : ∀ c ∈ terminalPrompt, Plain c := by decide +kernel
    rw [(putChars_cursor hplain (by rw [hx]; decide) (by rw [hy]; decide)).2, hx, hy]
    decide

/-! ### Runs -/

/-- **Screen safety of the shell**, for every run of keys after booting: while the rows that the keys compute
fit, the cursor is on the screen and every store hits a cell; and this is the exact condition. -/
theorem screen_safe (mem : Int → UInt16) (cs : List Byte) :
    ∃ s₀, start mem = .ok s₀ ∧
      (∀ s, AllSteps terminalRun RowsFit s₀ cs → exec terminalRun s₀ cs = .ok s → s.vga.Safe) ∧
      (AllSteps terminalRun RowsFit s₀ cs ↔
        AllSteps terminalRun (fun s c => ∀ s', terminalRun s c = .ok s' → s'.vga.Safe) s₀ cs) := by
  obtain ⟨s₀, hstart, hs₀⟩ := start_ok mem
  have hinit : (∃ z, LineInv z s₀) ∧ s₀.vga.Safe := ⟨⟨_, hs₀.lineInv⟩, hs₀.vga⟩
  have hkeep : ∀ s c s₁, ((∃ z, LineInv z s) ∧ s.vga.Safe) → RowsFit s c → terminalRun s c = .ok s₁ →
      (∃ z, LineInv z s₁) ∧ s₁.vga.Safe := by
    rintro s c s₁ ⟨⟨z, hz⟩, hv⟩ hfit hs
    exact ⟨⟨_, hz.step hs⟩, (rowsFit_iff hz hv c).mp hfit s₁ hs⟩
  refine ⟨s₀, hstart, fun s hfit hrun => (exec_inv hkeep hinit hfit hrun).2, ?_⟩
  refine allSteps_congr (I := fun s => (∃ z, LineInv z s) ∧ s.vga.Safe) (P := fun _ => True) ?_
    (fun s c s₁ hI _ => hkeep s c s₁ hI) hinit (fun _ _ => trivial)
  rintro s c ⟨⟨z, hz⟩, hv⟩ -
  exact rowsFit_iff hz hv c

theorem screen_safe_sample : ∃ s₀ s, start (fun _ => 0) = .ok s₀ ∧
    exec terminalRun s₀ (str "lx" ++ [backspace, 115, charLeft, charRight]) = .ok s ∧ s.vga.Safe := by
  obtain ⟨s₀, hs₀, hsafe, -⟩ := screen_safe (fun _ => 0) (str "lx" ++ [backspace, 115, charLeft, charRight])
  have hrun : ((start fun _ => 0).bind fun s₀ =>
      (exec terminalRun s₀ (str "lx" ++ [backspace, 115, charLeft, charRight])).bind
        fun _ => .ok ()) = .ok () := by
    decide +kernel
  obtain ⟨s₀', hs₀', h1⟩ := bind_ok_iff.mp hrun
  cases hs₀.symm.trans hs₀'
  obtain ⟨s, hs, -⟩ := bind_ok_iff.mp h1
  obtain ⟨s₀'', hs₀'', hstarted⟩ := start_ok fun _ => 0
  cases hs₀.symm.trans hs₀''
  exact ⟨s₀, s, hs₀, hs, hsafe s (rowsFit_short_lines (by decide +kernel) hstarted.lineInv hstarted.vga) hs⟩

/-- After `clear`, the 73rd character wraps the line, and the redraw starts one row above the screen. -/
theorem long_line_off_screen : ∃ s₀ s, start (fun _ => 0) = .ok s₀ ∧
    exec terminalRun s₀ (str "clear\n" ++ List.replicate 73 97) = .ok s ∧ -73 ∈ s.vga.stores := by
  obtain ⟨s₀, hs₀, hstarted⟩ := start_ok fun _ => 0
  obtain ⟨s₁, hs₁, hline₁, hv₁, -⟩ : ∃ s₁, exec terminalRun s₀ (str "clear") = .ok s₁ ∧
      LineInv ⟨str "clear", []⟩ s₁ ∧ s₁.vga.Safe ∧ s₁.vga.cursorY = s₀.vga.cursorY :=
    typed_short (by decide +kernel) hstarted.lineInv hstarted.vga (by decide)
  obtain ⟨s₂, hs₂, hrow₂⟩ := clear_entered hline₁ rfl
  have hline₂ : LineInv ⟨[], []⟩ s₂ := hline₁.step hs₂
  have hv₂ : s₂.vga.Safe := (rowsFit_iff hline₁ hv₁ newline).mp trivial s₂ hs₂
  -- 72 characters fill the row, and the cursor is still in it
  obtain ⟨s₃, hs₃, hline₃, hv₃, hrow₃⟩ : ∃ s₃, exec terminalRun s₂ (List.replicate 72 97) = .ok s₃ ∧
      LineInv ⟨List.replicate 72 97, []⟩ s₃ ∧ s₃.vga.Safe ∧ s₃.vga.cursorY = s₂.vga.cursorY :=
    typed_short (fun c hc => List.eq_of_mem_replicate hc ▸ by decide) hline₂ hv₂ (by decide)
  have hbp : s₃.term.bufferPos = 72 := hline₃.editing.stored.size_eq
  have hprompt : s₃.term.promptLength = 7 := hline₃.editing.prompt
  obtain ⟨s, hs, -, hstore⟩ := printable_step (c := 97) hline₃ hv₃ (by decide) (by rw [hbp]; decide)
  rw [firstRow, lineRow, hbp, hprompt, hrow₃, hrow₂] at hstore
  refine ⟨s₀, s, hs₀, ?_, hstore⟩
  have hkeys : str "clear\n" ++ List.replicate 73 97 =
      ((str "clear" ++ [newline]) ++ List.replicate 72 97) ++ [97] := by decide
  rw [hkeys]
  refine exec_snoc_eq_ok.mpr ⟨s₃, exec_append_eq_ok.mpr ⟨s₂, exec_snoc_eq_ok.mpr ⟨s₁, hs₁, hs₂⟩, hs₃⟩, hs⟩

end FoxOS
