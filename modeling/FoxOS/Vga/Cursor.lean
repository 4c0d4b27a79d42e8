import FoxOS.Vga.Model

/-!
# FoxOS.Vga.Cursor — the cursor and the stores of the console

`Vga.Safe`: the cursor is on the screen and every store so far hit one of the cells.  Every character and
every clearing of the screen keeps it (`safe_putchar`, `safe_putChars`, `safe_clear`); only `vga_set_cursor`,
which checks nothing, can break it.  `putChars_cursor` is the position behind a run of plain characters:
the count of cells from the start, with the row stopped at the last one by scrolling.  `drawLine_stores`: a line
that is drawn over a place off the screen is stored there.
-/

namespace FoxOS

variable {v w u : Vga}

/-- The software cursor is on the screen. -/
structure Vga.OnScreen (v : Vga) : Prop where
  x : 0 ≤ v.cursorX ∧ v.cursorX < vgaWidth
  y : 0 ≤ v.cursorY ∧ v.cursorY < vgaHeight

/-- Every store hit a cell. -/
def Vga.StoresOk (v : Vga) : Prop := ∀ i ∈ v.stores, 0 ≤ i ∧ i < (vgaWidth * vgaHeight : ℕ)

structure Vga.Safe (v : Vga) : Prop extends Vga.OnScreen v where
  stores : v.StoresOk

theorem width_eq : (vgaWidth : Int) = 80 := rfl
theorem height_eq : (vgaHeight : Int) = 25 := rfl

/-! ### Stores of whole rows -/

/-- Only cells were rewritten. -/
structure Rewritten (v w : Vga) : Prop where
  x : w.cursorX = v.cursorX
  y : w.cursorY = v.cursorY
  color : w.color = v.color
  stores : v.StoresOk → w.StoresOk
  log : v.stores ⊆ w.stores

theorem Rewritten.refl (v : Vga) : Rewritten v v := ⟨rfl, rfl, rfl, id, List.Subset.refl _⟩

theorem Rewritten.trans (h : Rewritten v w) (h' : Rewritten w u) : Rewritten v u :=
  ⟨h'.x.trans h.x, h'.y.trans h.y, h'.color.trans h.color, fun hs => h'.stores (h.stores hs),
    List.Subset.trans h.log h'.log⟩

theorem rewritten_store {i : Int} (h0 : 0 ≤ i) (hi : i < (vgaWidth * vgaHeight : ℕ)) (e : UInt16) :
    Rewritten v (v.store i e) := by
  refine ⟨rfl, rfl, rfl, fun hs j hj => ?_, List.subset_cons_self _ _⟩
  rcases List.mem_cons.mp hj with rfl | hj
  · exact ⟨h0, hi⟩
  · exact hs j hj

theorem rewritten_foldl {A : Type} {f : Vga → A → Vga} (as : List A) (v : Vga)
    (h : ∀ w, ∀ a ∈ as, Rewritten w (f w a)) : Rewritten v (as.foldl f v) := by
  induction as generalizing v with
  | nil => exact .refl v
  | cons a as ih =>
    exact (h v a (by simp)).trans (ih _ fun w b hb => h w b (by simp [hb]))

/-- The cell in column `x` of row `y` is one of the screen. -/
theorem cell_lt {x y : ℕ} (hx : x < vgaWidth) (hy : y < vgaHeight) :
    ((y * vgaWidth + x : ℕ) : Int) < (vgaWidth * vgaHeight : ℕ) := by
  unfold vgaWidth vgaHeight at *
  omega

theorem rewritten_blankRow {y n : ℕ} (hy : y < vgaHeight) (hn : n ≤ vgaWidth) (v : Vga) :
    Rewritten v (blankRow y n v) := by
  refine rewritten_foldl _ v fun w x hx => rewritten_store (by omega) (cell_lt ?_ hy) _
  exact Nat.lt_of_lt_of_le (List.mem_range.mp hx) hn

theorem rewritten_copyRow {y : ℕ} (hy : y < vgaHeight) (v : Vga) : Rewritten v (copyRow v y) := by
  refine rewritten_foldl _ v fun w x hx => rewritten_store (by omega) (cell_lt ?_ hy) _
  exact List.mem_range.mp hx

theorem rewritten_scroll (v : Vga) : Rewritten v (vgaScroll v) := by
  have hcopy : Rewritten v ((List.range (vgaHeight - 1)).foldl copyRow v) := by
    refine rewritten_foldl _ v fun w y hy => rewritten_copyRow ?_ w
    exact Nat.lt_of_lt_of_le (List.mem_range.mp hy) (Nat.sub_le _ _)
  exact hcopy.trans (rewritten_blankRow (by decide) (Nat.le_refl _) _)

/-! ### Cursor moves -/

@[simp] theorem setCursor_x (v : Vga) (x y : Int) : (vgaSetCursor v x y).cursorX = x := rfl
@[simp] theorem setCursor_y (v : Vga) (x y : Int) : (vgaSetCursor v x y).cursorY = y := rfl

theorem safe_setCursor (hs : v.StoresOk) {x y : Int} (hx : 0 ≤ x ∧ x < vgaWidth)
    (hy : 0 ≤ y ∧ y < vgaHeight) : (vgaSetCursor v x y).Safe := ⟨⟨hx, hy⟩, hs⟩

/-- **Clearing** the screen. -/
theorem clear_cursor (v : Vga) : (vgaClear v).cursorX = 0 ∧ (vgaClear v).cursorY = 0 := ⟨rfl, rfl⟩

theorem safe_clear (hs : v.StoresOk) : (vgaClear v).Safe := by
  have hrows : Rewritten v ((List.range vgaHeight).foldl (fun v y => blankRow y vgaWidth v) v) :=
    rewritten_foldl _ v fun w y hy => rewritten_blankRow (List.mem_range.mp hy) (Nat.le_refl _) w
  exact safe_setCursor (hrows.stores hs) (by decide) (by decide)

/-- The wrap in the tail of `vga_putchar`. -/
def Vga.wrap (v : Vga) : Vga :=
  if v.cursorX ≥ vgaWidth then { v with cursorX := 0, cursorY := v.cursorY + 1 } else v

/-- The scroll in the tail of `vga_putchar`. -/
def Vga.follow (v : Vga) : Vga :=
  if v.cursorY ≥ vgaHeight then { vgaScroll v with cursorY := (vgaHeight : Int) - 1 } else v

theorem advance_eq (v : Vga) :
    v.advance = vgaSetCursor v.wrap.follow v.wrap.follow.cursorX v.wrap.follow.cursorY := rfl

theorem wrap_spec (v : Vga) : v.wrap.cursorX = (if 80 ≤ v.cursorX then 0 else v.cursorX) ∧
    v.wrap.cursorY = (if 80 ≤ v.cursorX then v.cursorY + 1 else v.cursorY) ∧
    v.wrap.stores = v.stores ∧ v.wrap.buffer = v.buffer ∧ v.wrap.color = v.color := by
  unfold Vga.wrap
  rw [width_eq]
  by_cases h : 80 ≤ v.cursorX
  · rw [if_pos h, if_pos h, if_pos h]
    exact ⟨rfl, rfl, rfl, rfl, rfl⟩
  · rw [if_neg h, if_neg h, if_neg h]
    exact ⟨rfl, rfl, rfl, rfl, rfl⟩

theorem follow_spec (v : Vga) : v.follow.cursorX = v.cursorX ∧ v.follow.cursorY = min 24 v.cursorY ∧
    (v.StoresOk → v.follow.StoresOk) ∧ v.stores ⊆ v.follow.stores := by
  have hscroll := rewritten_scroll v
  unfold Vga.follow
  rw [height_eq]
  generalize vgaScroll v = u at hscroll ⊢
  by_cases h : v.cursorY ≥ 25
  · rw [if_pos h]
    refine ⟨hscroll.x, ?_, hscroll.stores, hscroll.log⟩
    show (25 : Int) - 1 = min 24 v.cursorY
    omega
  · rw [if_neg h]
    exact ⟨rfl, by omega, id, List.Subset.refl _⟩

/-- **The tail of `vga_putchar`**: a column behind the last one wraps, a row behind the last one scrolls. -/
theorem advance_spec {v : Vga} : v.advance.cursorX = (if 80 ≤ v.cursorX then 0 else v.cursorX) ∧
    v.advance.cursorY = min 24 (if 80 ≤ v.cursorX then v.cursorY + 1 else v.cursorY) ∧
    (v.StoresOk → v.advance.StoresOk) ∧ v.stores ⊆ v.advance.stores := by
  obtain ⟨hx, hy, hs, -⟩ := wrap_spec v
  obtain ⟨hx', hy', hs', hlog⟩ := follow_spec v.wrap
  rw [advance_eq, setCursor_x, setCursor_y, hx', hy', hx, hy]
  refine ⟨rfl, rfl, fun h => hs' fun i hi => h i (hs ▸ hi), fun i hi => hlog (hs ▸ hi)⟩

theorem safe_advance (hx : 0 ≤ v.cursorX ∧ v.cursorX ≤ vgaWidth) (hy : 0 ≤ v.cursorY ∧ v.cursorY ≤ vgaHeight)
    (hs : v.StoresOk) : v.advance.Safe := by
  obtain ⟨h1, h2, h3, -⟩ := advance_spec (v := v)
  rw [width_eq] at hx
  rw [height_eq] at hy
  refine ⟨⟨?_, ?_⟩, h3 hs⟩
  · rw [h1, width_eq]
    split_ifs <;> omega
  · rw [h2, height_eq]
    split_ifs <;> omega

/-- The cell under an on-screen position. -/
theorem cell_range {x y : Int} (hx : 0 ≤ x ∧ x < vgaWidth) (hy : 0 ≤ y ∧ y < vgaHeight) :
    0 ≤ y * vgaWidth + x ∧ y * vgaWidth + x < (vgaWidth * vgaHeight : ℕ) := by
  rw [width_eq] at *
  rw [height_eq] at hy
  show 0 ≤ y * 80 + x ∧ y * 80 + x < (2000 : ℕ)
  omega

theorem safe_erase (hs : v.StoresOk) {x y : Int} (hx : 0 ≤ x ∧ x < vgaWidth) (hy : 0 ≤ y ∧ y < vgaHeight) :
    (v.erase x y).Safe := by
  obtain ⟨h0, h1⟩ := cell_range hx hy
  exact safe_setCursor ((rewritten_store h0 h1 _).stores hs) hx hy

/-- **One character** keeps the cursor on the screen and stores into cells only. -/
theorem safe_putchar (h : v.Safe) (c : Byte) : (vgaPutchar v c).Safe := by
  obtain ⟨⟨hx, hy⟩, hs⟩ := h
  have hx' := hx
  have hy' := hy
  rw [width_eq] at hx'
  rw [height_eq] at hy'
  unfold vgaPutchar
  by_cases h1 : c = newline
  · rw [if_pos h1]
    exact safe_advance (by simp) (by simp only [height_eq]; omega) hs
  by_cases h2 : c = carriageReturn
  · rw [if_neg h1, if_pos h2]
    exact safe_advance (by simp) (by simp only [height_eq]; omega) hs
  by_cases h3 : c = tab
  · rw [if_neg h1, if_neg h2, if_pos h3]
    exact safe_advance (by simp only [width_eq]; omega) (by simp only [height_eq]; omega) hs
  by_cases h4 : c = backspace
  · rw [if_neg h1, if_neg h2, if_neg h3, if_pos h4]
    by_cases h5 : v.cursorX > 0
    · rw [if_pos h5]
      exact safe_erase hs (by rw [width_eq]; omega) hy
    by_cases h6 : v.cursorY > 0
    · rw [if_neg h5, if_pos h6]
      exact safe_erase hs (by rw [width_eq]; omega) (by rw [height_eq]; omega)
    · rw [if_neg h5, if_neg h6]
      exact safe_advance (by rw [width_eq]; omega) (by rw [height_eq]; omega) hs
  · rw [if_neg h1, if_neg h2, if_neg h3, if_neg h4]
    obtain ⟨h0, hlt⟩ := cell_range hx hy
    have hst := (rewritten_store (v := v) h0 hlt (vgaEntry c v.color)).stores hs
    exact safe_advance (by simp only [width_eq]; omega) (by simp only [height_eq, Vga.store]; omega) hst

theorem safe_putChars (h : v.Safe) (cs : List Byte) : (putChars v cs).Safe := by
  induction cs generalizing v with
  | nil => exact h
  | cons c cs ih => exact ih (safe_putchar h c)

/-! ### Plain characters -/

/-- A character that fills a cell and moves on. -/
def Plain (c : Byte) : Prop := c ≠ newline ∧ c ≠ carriageReturn ∧ c ≠ tab ∧ c ≠ backspace

instance (c : Byte) : Decidable (Plain c) := inferInstanceAs (Decidable (_ ∧ _ ∧ _ ∧ _))

theorem putchar_plain {c : Byte} (hc : Plain c) : vgaPutchar v c = Vga.advance
    { v.store (v.cursorY * vgaWidth + v.cursorX) (vgaEntry c v.color) with cursorX := v.cursorX + 1 } := by
  obtain ⟨h1, h2, h3, h4⟩ := hc
  rw [vgaPutchar, if_neg h1, if_neg h2, if_neg h3, if_neg h4]

theorem plain_blanks (n : ℕ) : ∀ c ∈ List.replicate n space, Plain c := by
  intro c hc
  rw [List.eq_of_mem_replicate hc]
  decide

/-- **Plain characters** move the cursor cell by cell; scrolling stops the row at the last one. -/
theorem putChars_cursor {cs : List Byte} (hcs : ∀ c ∈ cs, Plain c) (hx : 0 ≤ v.cursorX ∧ v.cursorX < vgaWidth)
    (hy : v.cursorY < vgaHeight) :
    (putChars v cs).cursorX = (v.cursorX + cs.length) % 80 ∧
    (putChars v cs).cursorY = min 24 (v.cursorY + (v.cursorX + cs.length) / 80) := by
  rw [width_eq] at hx
  rw [height_eq] at hy
  induction cs generalizing v with
  | nil =>
    simp only [putChars, List.foldl_nil, List.length_nil]
    omega
  | cons c cs ih =>
    have hstep : putChars v (c :: cs) = putChars (vgaPutchar v c) cs := rfl
    obtain ⟨h1, h2, -, -⟩ := advance_spec
      (v := { v.store (v.cursorY * vgaWidth + v.cursorX) (vgaEntry c v.color) with cursorX := v.cursorX + 1 })
    rw [← putchar_plain (hcs c (by simp))] at h1 h2
    simp only [Vga.store] at h1 h2
    have hx' : 0 ≤ (vgaPutchar v c).cursorX ∧ (vgaPutchar v c).cursorX < 80 := by
      rw [h1]
      split_ifs <;> omega
    have hy' : (vgaPutchar v c).cursorY < 25 := by
      rw [h2]
      omega
    obtain ⟨g1, g2⟩ := ih (fun d hd => hcs d (by simp [hd])) hx' hy'
    rw [hstep, g1, g2, h1, h2, List.length_cons]
    push_cast
    constructor
    · split_ifs <;> omega
    · split_ifs <;> omega

/-! ### The log of the stores -/

/-- A plain character is stored in the cell under the cursor, and the log only grows. -/
theorem putchar_stores {c : Byte} (hc : Plain c) :
    v.cursorY * vgaWidth + v.cursorX ∈ (vgaPutchar v c).stores ∧ v.stores ⊆ (vgaPutchar v c).stores := by
  rw [putchar_plain hc]
  obtain ⟨-, -, -, hlog⟩ := advance_spec
    (v := { v.store (v.cursorY * vgaWidth + v.cursorX) (vgaEntry c v.color) with cursorX := v.cursorX + 1 })
  exact ⟨hlog List.mem_cons_self, fun i hi => hlog (List.mem_cons_of_mem _ hi)⟩

theorem putChars_stores {cs : List Byte} (hcs : ∀ c ∈ cs, Plain c) : v.stores ⊆ (putChars v cs).stores := by
  induction cs generalizing v with
  | nil => exact List.Subset.refl _
  | cons c cs ih =>
    exact List.Subset.trans (putchar_stores (hcs c (by simp))).2 (ih fun d hd => hcs d (by simp [hd]))

/-! ### Drawing over a place -/

/-- Blank `n` cells from a place on, then draw the line there. -/
def drawLine (v : Vga) (x y : Int) (n : ℕ) (line : List Byte) : Vga :=
  putChars (vgaSetCursor (putChars (vgaSetCursor v x y) (List.replicate n space)) x y) line

section Draw

variable {x y : Int} {n : ℕ} {line : List Byte}

theorem safe_drawLine (hs : v.StoresOk) (hx : 0 ≤ x ∧ x < vgaWidth) (hy : 0 ≤ y ∧ y < vgaHeight) :
    (drawLine v x y n line).Safe := by
  have hblank := safe_putChars (safe_setCursor hs hx hy) (List.replicate n space)
  exact safe_putChars (safe_setCursor hblank.stores hx hy) line

theorem drawLine_row (hline : ∀ c ∈ line, Plain c) (hx : 0 ≤ x ∧ x < vgaWidth) (hy : y < vgaHeight) :
    (drawLine v x y n line).cursorY = min 24 (y + (x + line.length) / 80) :=
  (putChars_cursor hline hx hy).2

/-- The first blank is stored at the place itself, wherever that is. -/
theorem drawLine_stores (hline : ∀ c ∈ line, Plain c) :
    y * vgaWidth + x ∈ (drawLine v x y (n + 1) line).stores := by
  have hspace : Plain space := by decide
  have hfirst := (putchar_stores (v := vgaSetCursor v x y) hspace).1
  exact putChars_stores hline (putChars_stores (plain_blanks n) hfirst)

end Draw

end FoxOS
