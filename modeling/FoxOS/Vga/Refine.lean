import FoxOS.Lib.Teletype
import FoxOS.Vga.Cells

/-!
# FoxOS.Vga.Refine — the console refines an unbounded teletype

`typeChar` is what a character means on a teletype with rows of 80 cells that never end.  `Aligned` relates the
console to it: the text memory is the 25 rows of the window, the cursor is the teletype's cursor seen from the
window, and the rows below the window are still blank, so the blank row that scrolling brings in is the next row
of the teletype.  Each character keeps it (`Aligned.step`).  `console_refines` is the refinement for whole
strings.
-/

namespace FoxOS

open Teletype

/-! ### The teletype -/

/-- The cell of a character in a colour. -/
def cell (color : UInt8) (c : Byte) : UInt16 := c.toUInt16 ||| (color.toUInt16 <<< 8)

/-- What a character means. -/
def typeChar (color : UInt8) (t : Teletype UInt16) (c : Byte) : Teletype UInt16 :=
  if c = newline then t.newline vgaWidth vgaHeight
  else if c = carriageReturn then t.carriageReturn
  else if c = tab then t.tab vgaWidth vgaHeight
  else if c = backspace then t.back vgaWidth (cell color space)
  else t.put vgaWidth vgaHeight (cell color c)

/-- The teletype that starts with the screen and the cursor of the console; the rows below are blank. -/
def Vga.teletype (v : Vga) : Teletype UInt16 where
  rows := fun r x => if r < vgaHeight then v.buffer ((r * vgaWidth + x : ℕ) : Int) else cell v.color space
  row := v.cursorY.toNat
  col := v.cursorX.toNat
  base := 0

theorem vgaEntry_of_lt {c : Byte} (hc : c < 128) (color : UInt8) : vgaEntry c color = cell color c := by
  rw [vgaEntry, if_pos hc]
  rfl

/-! ### The relation -/

structure Aligned (color : UInt8) (v : Vga) (t : Teletype UInt16) : Prop where
  color_eq : v.color = color
  cells : ∀ y < 25, ∀ x < 80, v.buffer ((y * 80 + x : ℕ) : Int) = t.window y x
  col : v.cursorX = t.col
  row : v.cursorY + t.base = t.row
  blank : ∀ r x, t.base + 25 ≤ r → t.rows r x = cell color space

variable {color : UInt8} {v : Vga} {t : Teletype UInt16} {c : Byte}

/-- A cursor move on both sides. -/
theorem Aligned.move (h : Aligned color v t) {x y : Int} (row col : ℕ) (hx : x = col) (hy : y + t.base = row) :
    Aligned color { v with cursorX := x, cursorY := y } { t with row := row, col := col } :=
  ⟨h.color_eq, h.cells, hx, hy, h.blank⟩

/-- **A store** under the cursor. -/
theorem Aligned.store (h : Aligned color v t) (hf : Fits 80 25 t) (e : UInt16) :
    Aligned color (v.store (v.cursorY * vgaWidth + v.cursorX) e) (t.setCell e) := by
  obtain ⟨hbase, hrow, hcol⟩ := hf
  have hvx := h.col
  have hvy := h.row
  refine ⟨h.color_eq, fun y hy x hx => ?_, hvx, hvy, fun r x hr => ?_⟩
  · show Function.update v.buffer (v.cursorY * vgaWidth + v.cursorX) e ((y * 80 + x : ℕ) : Int) =
      if t.base + y = t.row ∧ x = t.col then e else t.window y x
    rw [width_eq]
    by_cases hcell : t.base + y = t.row ∧ x = t.col
    · rw [if_pos hcell, show ((y * 80 + x : ℕ) : Int) = v.cursorY * 80 + v.cursorX by omega,
        Function.update_self]
    · rw [if_neg hcell, Function.update_of_ne (by omega), h.cells y hy x hx]
  · show (if r = t.row ∧ x = t.col then e else t.rows r x) = _
    rw [if_neg (by rintro ⟨rfl, -⟩; exact absurd hr (by show ¬ t.base + 25 ≤ t.row; omega))]
    exact h.blank r x hr

/-! ### Wrap and scroll -/

theorem Aligned.wrap (h : Aligned color v t) : Aligned color v.wrap (t.wrap 80) := by
  obtain ⟨hx, hy, -, hbuf, hcolor⟩ := wrap_spec v
  have hvx := h.col
  have hvy := h.row
  rcases Nat.lt_or_ge t.col 80 with hcol | hcol
  · rw [wrap_of_lt hcol]
    rw [if_neg (by omega)] at hx hy
    exact ⟨hcolor.trans h.color_eq, fun y hy' x hx' => by rw [hbuf]; exact h.cells y hy' x hx', by rw [hx, hvx],
      by rw [hy, hvy], h.blank⟩
  · rw [wrap_of_le hcol]
    rw [if_pos (by omega)] at hx hy
    refine ⟨hcolor.trans h.color_eq, fun y hy' x hx' => by rw [hbuf]; exact h.cells y hy' x hx',
      by rw [hx]; rfl, ?_, h.blank⟩
    show v.wrap.cursorY + t.base = ((t.row + 1 : ℕ) : Int)
    omega

/-- **Scrolling** moves the window by one row: the row that comes in is blank on both sides. -/
theorem Aligned.follow (h : Aligned color v t) (hrow : t.row ≤ t.base + 25) :
    Aligned color v.follow (t.follow 25) := by
  have hvy := h.row
  unfold Vga.follow
  rw [height_eq]
  rcases Nat.lt_or_eq_of_le hrow with hin | hbelow
  · rw [if_neg (by omega), follow_of_lt hin]
    exact h
  · obtain ⟨hcolor, hbuf⟩ := scroll_buffer v
    have hx := (rewritten_scroll v).x
    rw [if_pos (by omega), follow_of_eq hbelow]
    generalize vgaScroll v = u at hcolor hbuf hx ⊢
    refine ⟨hcolor.trans h.color_eq, fun y hy x hx' => ?_, hx.trans h.col, ?_, fun r x hr => ?_⟩
    · show u.buffer ((y * 80 + x : ℕ) : Int) = t.rows (t.base + 1 + y) x
      rw [hbuf]
      by_cases hlast : y = 24
      · rw [if_neg (by omega), if_pos (by omega), h.blank _ x (by omega), h.color_eq,
          vgaEntry_of_lt (by decide)]
      · rw [if_pos (by omega), show ((y * 80 + x : ℕ) : Int) + 80 = ((y + 1) * 80 + x : ℕ) by omega,
          h.cells (y + 1) (by omega) x hx', Teletype.window, Nat.add_right_comm, Nat.add_assoc]
    · show (25 : Int) - 1 + ((t.base + 1 : ℕ) : Int) = (t.row : Int)
      omega
    · exact h.blank r x (Nat.le_of_lt (show t.base + 25 < r from by
        have : t.base + 1 + 25 ≤ r := hr
        omega))

/-- **The tail of `vga_putchar`** settles the teletype. -/
theorem Aligned.advance (h : Aligned color v t) (hrow : (t.wrap 80).row ≤ t.base + 25) :
    Aligned color v.advance (t.settle 80 25) := by
  have hbase : (t.wrap 80).base = t.base := by
    unfold Teletype.wrap
    split_ifs <;> rfl
  have hend := h.wrap.follow (by rwa [hbase])
  rw [advance_eq]
  exact ⟨hend.color_eq, hend.cells, hend.col, hend.row, hend.blank⟩

theorem Aligned.erase (h : Aligned color v t) {x y : Int} {row col : ℕ} (hx : x = col) (hy : y + t.base = row)
    (hf : Fits 80 25 { t with row := row, col := col }) :
    Aligned color (v.erase x y) (setCell { t with row := row, col := col } (cell color space)) := by
  have hst := (h.move _ _ hx hy).store hf (cell color space)
  have hentry : vgaEntry space v.color = cell color space := by
    rw [h.color_eq, vgaEntry_of_lt (by decide)]
  unfold Vga.erase
  rw [hentry]
  exact ⟨hst.color_eq, hst.cells, hst.col, hst.row, hst.blank⟩

/-! ### Characters -/

/-- **One character** keeps console and teletype aligned. -/
theorem Aligned.step (h : Aligned color v t) (hf : Fits 80 25 t) (hc : c < 128) :
    Aligned color (vgaPutchar v c) (typeChar color t c) ∧ Fits 80 25 (typeChar color t c) := by
  have hfits := hf
  obtain ⟨hbase, hrow, hcol⟩ := hf
  have hvx := h.col
  have hvy := h.row
  unfold vgaPutchar typeChar
  by_cases h1 : c = newline
  · rw [if_pos h1, if_pos h1]
    refine ⟨Aligned.advance (h.move (t.row + 1) 0 rfl (by omega)) ?_, ?_⟩
    · rw [wrap_of_lt (show (0 : ℕ) < 80 by decide)]
      exact hrow
    · exact settle_fits (by decide) (by decide) (Nat.le_succ_of_le hbase)
  rw [if_neg h1, if_neg h1]
  by_cases h2 : c = carriageReturn
  · rw [if_pos h2, if_pos h2]
    have hback : Fits 80 25 t.carriageReturn := ⟨hbase, hrow, show (0 : ℕ) < 80 by decide⟩
    refine ⟨?_, hback⟩
    rw [← settle_of_fits hback]
    refine Aligned.advance (h.move t.row 0 rfl hvy) ?_
    rw [wrap_of_lt (show (0 : ℕ) < 80 by decide)]
    exact Nat.le_of_lt hrow
  rw [if_neg h2, if_neg h2]
  by_cases h3 : c = tab
  · rw [if_pos h3, if_pos h3]
    refine ⟨Aligned.advance (h.move t.row ((t.col / 8 + 1) * 8) (by omega) hvy) ?_, ?_⟩
    · unfold Teletype.wrap
      split_ifs
      · exact hrow
      · exact Nat.le_of_lt hrow
    · exact settle_fits (by decide) (by decide) hbase
  rw [if_neg h3, if_neg h3]
  by_cases h4 : c = backspace
  · rw [if_pos h4, if_pos h4]
    unfold back
    by_cases h5 : 0 < t.col
    · have hback : Fits 80 25 { t with col := t.col - 1 } := ⟨hbase, hrow, show t.col - 1 < 80 by omega⟩
      rw [if_pos (by omega), if_pos h5]
      exact ⟨h.erase (by omega) hvy hback, hback.setCell _⟩
    rw [if_neg (by omega), if_neg h5]
    by_cases h6 : t.base < t.row
    · have hback : Fits 80 25 { t with row := t.row - 1, col := 79 } :=
        ⟨show t.base ≤ t.row - 1 by omega, show t.row - 1 < t.base + 25 by omega, show 79 < 80 by decide⟩
      rw [if_pos (by omega), if_pos h6]
      exact ⟨h.erase (by rw [width_eq]; rfl) (by omega) hback, hback.setCell _⟩
    · rw [if_neg (by omega), if_neg h6]
      refine ⟨?_, hfits⟩
      rw [← settle_of_fits hfits]
      refine h.advance ?_
      rw [wrap_of_lt hcol]
      exact Nat.le_of_lt hrow
  · rw [if_neg h4, if_neg h4, h.color_eq, vgaEntry_of_lt hc]
    have hst := h.store hfits (cell color c)
    refine ⟨Aligned.advance (hst.move t.row (t.col + 1) (by show v.cursorX + 1 = _; omega) hvy) ?_, ?_⟩
    · unfold Teletype.wrap
      split_ifs
      · exact hrow
      · exact Nat.le_of_lt hrow
    · exact settle_fits (by decide) (by decide) hbase

/-! ### The cursor registers -/

/-- The position in the cursor registers. -/
def Vga.registers (v : Vga) : ℕ := v.cursorHigh.toNat * 256 + v.cursorLow.toNat

/-- The registers hold the position of the software cursor. -/
def Vga.Synced (v : Vga) : Prop := (v.registers : Int) = v.cursorY * vgaWidth + v.cursorX

theorem bytes_toNat {n : ℕ} (hn : n < 2 ^ 16) :
    (UInt8.ofNat (n / 256)).toNat * 256 + (UInt8.ofNat n).toNat = n := by
  rw [UInt8.toNat_ofNat', UInt8.toNat_ofNat']
  omega

theorem synced_setCursor {x y : Int} (hv : (vgaSetCursor v x y).OnScreen) : (vgaSetCursor v x y).Synced := by
  obtain ⟨h0, hlt⟩ := cell_range hv.x hv.y
  have hpos : (((y * vgaWidth + x) % 2 ^ 16).toNat : Int) = y * vgaWidth + x := by
    have h0' : 0 ≤ y * vgaWidth + x := h0
    have hlt' : y * vgaWidth + x < 2000 := hlt
    omega
  unfold Vga.Synced Vga.registers vgaSetCursor
  simp only
  rw [bytes_toNat (by omega), hpos]

/-- Every character ends with the cursor sent to the registers. -/
theorem putchar_synced (hv : (vgaPutchar v c).OnScreen) : (vgaPutchar v c).Synced := by
  obtain ⟨w, x, y, hw⟩ : ∃ w x y, vgaPutchar v c = vgaSetCursor w x y := by
    unfold vgaPutchar
    split_ifs <;> exact ⟨_, _, _, rfl⟩
  rw [hw] at hv ⊢
  exact synced_setCursor hv

/-! ### Strings -/

theorem Aligned.onScreen (h : Aligned color v t) (hf : Fits 80 25 t) : v.OnScreen := by
  obtain ⟨hbase, hrow, hcol⟩ := hf
  have hvx := h.col
  have hvy := h.row
  exact ⟨by rw [width_eq]; omega, by rw [height_eq]; omega⟩

/-- **A string** keeps console and teletype aligned, and its last character sends the cursor to the
registers. -/
theorem Aligned.write {s : List Byte} (h : Aligned color v t) (hf : Fits 80 25 t) (hs : ∀ c ∈ s, c < 128) :
    Aligned color (vgaWrite v s) (s.foldl (typeChar color) t) ∧ Fits 80 25 (s.foldl (typeChar color) t) ∧
      (s ≠ [] ∨ v.Synced → (vgaWrite v s).Synced) := by
  induction s generalizing v t with
  | nil => exact ⟨h, hf, fun hs => hs.resolve_left (fun hne => hne rfl)⟩
  | cons c s ih =>
    obtain ⟨h', hf'⟩ := h.step hf (hs c (by simp))
    obtain ⟨hend, hfend, hsync⟩ := ih h' hf' fun d hd => hs d (by simp [hd])
    exact ⟨hend, hfend, fun _ => hsync (Or.inr (putchar_synced (h'.onScreen hf')))⟩

/-- The teletype of a console whose cursor is on the screen. -/
theorem aligned_teletype (hv : v.OnScreen) : Aligned v.color v v.teletype ∧ Fits 80 25 v.teletype := by
  obtain ⟨hx, hy⟩ := hv
  rw [width_eq] at hx
  rw [height_eq] at hy
  refine ⟨⟨rfl, fun y hy' x _ => ?_, ?_, ?_, fun r x hr => ?_⟩, ⟨Nat.zero_le _, ?_, ?_⟩⟩
  · show _ = if 0 + y < 25 then v.buffer (((0 + y) * 80 + x : ℕ) : Int) else _
    rw [Nat.zero_add, if_pos hy']
  · exact (Int.toNat_of_nonneg hx.1).symm
  · exact (Int.add_zero _).trans (Int.toNat_of_nonneg hy.1).symm
  · exact if_neg (Nat.not_lt_of_le (show 25 ≤ r from (Nat.zero_add 25).symm ▸ hr))
  · show v.cursorY.toNat < 0 + 25
    omega
  · show v.cursorX.toNat < 80
    omega

/-- **The console refines the unbounded teletype**: for every screen, every cursor on it and every string of
bytes from 1 to 127, the text memory is the window of the teletype that was fed the string, the cursor is the
teletype's and on the screen, every store hits a cell, and the registers hold the cursor position once anything
was sent to them. -/
theorem console_refines (v : Vga) (s : CString) (hv : v.OnScreen) (hs : ∀ c ∈ s.val, c < 128) :
    (∀ y < vgaHeight, ∀ x < vgaWidth, (vgaWrite v s.val).buffer ((y * vgaWidth + x : ℕ) : Int) =
      (s.val.foldl (typeChar v.color) v.teletype).window y x) ∧
    (vgaWrite v s.val).cursorX = (s.val.foldl (typeChar v.color) v.teletype).col ∧
    (vgaWrite v s.val).cursorY + (s.val.foldl (typeChar v.color) v.teletype).base =
      (s.val.foldl (typeChar v.color) v.teletype).row ∧
    (vgaWrite v s.val).OnScreen ∧ (v.StoresOk → (vgaWrite v s.val).StoresOk) ∧
    (s.val ≠ [] ∨ v.Synced → (vgaWrite v s.val).Synced) := by
  obtain ⟨h, hf⟩ := aligned_teletype hv
  obtain ⟨hend, hfend, hsync⟩ := h.write hf hs
  exact ⟨hend.cells, hend.col, hend.row, hend.onScreen hfend,
    fun hst => (safe_putChars ⟨hv, hst⟩ s.val).stores, hsync⟩

/-- An `a` in the last cell scrolls the screen; the tab and the `b` behind it are in the new last row. -/
theorem console_refines_sample :
    (vgaWrite ⟨fun _ => 0, 79, 24, 7, 0, 0, []⟩ (str "a\tb")).buffer
      ((23 * vgaWidth + 79 : ℕ) : Int) = cell 7 97 ∧
    (vgaWrite ⟨fun _ => 0, 79, 24, 7, 0, 0, []⟩ (str "a\tb")).buffer
      ((24 * vgaWidth + 8 : ℕ) : Int) = cell 7 98 := by
  obtain ⟨hcells, -⟩ := console_refines ⟨fun _ => 0, 79, 24, 7, 0, 0, []⟩ (lit "a\tb") ⟨by decide, by decide⟩
    (by decide +kernel)
  exact ⟨(hcells 23 (by decide) 79 (by decide)).trans (by decide +kernel),
    (hcells 24 (by decide) 8 (by decide)).trans (by decide +kernel)⟩

end FoxOS
