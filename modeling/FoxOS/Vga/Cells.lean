import FoxOS.Vga.Cursor

/-!
# FoxOS.Vga.Cells — what the text memory holds

The loops over a row store into consecutive cells; `storeRun_buffer` says what is in every cell afterwards.
Scrolling copies the rows in place from the top, each from a row that is not written yet (`scroll_buffer`).
Characters that do not reach the end of their row are stored side by side and touch nothing else
(`putChars_in_row`, `drawLine_in_row`).
-/

namespace FoxOS

variable {v : Vga}

/-! ### Runs of stores -/

/-- Stores into the `n` cells from `b` on, each with an entry computed from the state. -/
def storeRun (e : Vga → ℕ → UInt16) (b n : ℕ) (v : Vga) : Vga :=
  (List.range n).foldl (fun v x => v.store ((b + x : ℕ) : Int) (e v x)) v

/-- **A run of stores**, when the entries depend on the colour and on cells outside the run only. -/
theorem storeRun_buffer {e : Vga → ℕ → UInt16} {b n : ℕ}
    (he : ∀ u x, x < n → u.color = v.color →
      (∀ i : Int, ¬ ((b : Int) ≤ i ∧ i < (b + n : ℕ)) → u.buffer i = v.buffer i) → e u x = e v x) :
    (storeRun e b n v).color = v.color ∧ ∀ i : Int, (storeRun e b n v).buffer i =
      if (b : Int) ≤ i ∧ i < (b + n : ℕ) then e v (i - b).toNat else v.buffer i := by
  -- by induction on the stores made so far
  suffices hrun : ∀ m ≤ n, (storeRun e b m v).color = v.color ∧ ∀ i : Int, (storeRun e b m v).buffer i =
      if (b : Int) ≤ i ∧ i < (b + m : ℕ) then e v (i - b).toNat else v.buffer i from hrun n (Nat.le_refl n)
  intro m
  induction m with
  | zero =>
    intro _
    refine ⟨rfl, fun i => ?_⟩
    rw [if_neg (by omega)]
    rfl
  | succ m ih =>
    intro hm
    obtain ⟨hcolor, hbuf⟩ := ih (by omega)
    have hstep : storeRun e b (m + 1) v =
        (storeRun e b m v).store ((b + m : ℕ) : Int) (e (storeRun e b m v) m) := by
      rw [storeRun, List.range_succ, List.foldl_append]
      rfl
    have hentry : e (storeRun e b m v) m = e v m := by
      refine he _ m (by omega) hcolor fun i hi => ?_
      rw [hbuf, if_neg (by omega)]
    rw [hstep, hentry]
    refine ⟨hcolor, fun i => ?_⟩
    show Function.update (storeRun e b m v).buffer ((b + m : ℕ) : Int) (e v m) i = _
    by_cases hi : i = ((b + m : ℕ) : Int)
    · subst hi
      rw [Function.update_self, if_pos (by omega), show (((b + m : ℕ) : Int) - b).toNat = m by omega]
    · rw [Function.update_of_ne hi, hbuf]
      by_cases hin : (b : Int) ≤ i ∧ i < (b + m : ℕ)
      · rw [if_pos hin, if_pos (by omega)]
      · rw [if_neg hin, if_neg (by omega)]

theorem blankRow_buffer (y n : ℕ) (v : Vga) : (blankRow y n v).color = v.color ∧ ∀ i : Int,
    (blankRow y n v).buffer i =
      if ((y * 80 : ℕ) : Int) ≤ i ∧ i < (y * 80 + n : ℕ) then vgaEntry space v.color else v.buffer i :=
  storeRun_buffer (e := fun v _ => vgaEntry space v.color) (b := y * vgaWidth)
    fun u x _ hcolor _ => by rw [hcolor]

theorem copyRow_eq (y : ℕ) (v : Vga) : copyRow v y =
    storeRun (fun v x => v.buffer (((y + 1) * vgaWidth + x : ℕ) : Int)) (y * vgaWidth) vgaWidth v := rfl

theorem copyRow_buffer (y : ℕ) (v : Vga) : (copyRow v y).color = v.color ∧ ∀ i : Int,
    (copyRow v y).buffer i =
      if ((y * 80 : ℕ) : Int) ≤ i ∧ i < (y * 80 + 80 : ℕ) then v.buffer (i + 80) else v.buffer i := by
  have hw : vgaWidth = 80 := rfl
  rw [copyRow_eq]
  obtain ⟨hcolor, hbuf⟩ := storeRun_buffer (v := v) (b := y * vgaWidth) (n := vgaWidth)
    (e := fun v x => v.buffer (((y + 1) * vgaWidth + x : ℕ) : Int))
    fun u x hx _ hout => hout _ (by rw [hw]; omega)
  generalize storeRun _ _ _ v = u at hcolor hbuf ⊢
  rw [hw] at hbuf
  refine ⟨hcolor, fun i => ?_⟩
  rw [hbuf]
  by_cases hi : ((y * 80 : ℕ) : Int) ≤ i ∧ i < (y * 80 + 80 : ℕ)
  · rw [if_pos hi, if_pos hi]
    congr 1
    omega
  · rw [if_neg hi, if_neg hi]

/-- The first `n` rows are copied up; each copy reads a row that is still the old one. -/
theorem copyRows_buffer (n : ℕ) (v : Vga) : ((List.range n).foldl copyRow v).color = v.color ∧ ∀ i : Int,
    ((List.range n).foldl copyRow v).buffer i =
      if 0 ≤ i ∧ i < (n * 80 : ℕ) then v.buffer (i + 80) else v.buffer i := by
  induction n with
  | zero =>
    refine ⟨rfl, fun i => ?_⟩
    rw [if_neg (by omega)]
    rfl
  | succ n ih =>
    rw [List.range_succ, List.foldl_append, List.foldl_cons, List.foldl_nil]
    obtain ⟨hcolor, hbuf⟩ := ih
    generalize (List.range n).foldl copyRow v = u at hcolor hbuf ⊢
    obtain ⟨hcolor', hbuf'⟩ := copyRow_buffer n u
    refine ⟨hcolor'.trans hcolor, fun i => ?_⟩
    rw [hbuf', hbuf, hbuf]
    by_cases hi : ((n * 80 : ℕ) : Int) ≤ i ∧ i < (n * 80 + 80 : ℕ)
    · rw [if_pos hi, if_neg (by omega), if_pos (by omega)]
    · rw [if_neg hi]
      by_cases hlow : 0 ≤ i ∧ i < (n * 80 : ℕ)
      · rw [if_pos hlow, if_pos (by omega)]
      · rw [if_neg hlow, if_neg (by omega)]

/-- **Scrolling**: every row but the last is the row below it, the last one is blank. -/
theorem scroll_buffer (v : Vga) : (vgaScroll v).color = v.color ∧ ∀ i : Int,
    (vgaScroll v).buffer i =
      if 0 ≤ i ∧ i < 1920 then v.buffer (i + 80)
      else if 1920 ≤ i ∧ i < 2000 then vgaEntry space v.color else v.buffer i := by
  obtain ⟨hcolor, hbuf⟩ := copyRows_buffer (vgaHeight - 1) v
  unfold vgaScroll
  generalize (List.range (vgaHeight - 1)).foldl copyRow v = u at hcolor hbuf ⊢
  obtain ⟨hcolor', hbuf'⟩ := blankRow_buffer (vgaHeight - 1) vgaWidth u
  generalize blankRow (vgaHeight - 1) vgaWidth u = u' at hcolor' hbuf' ⊢
  rw [show vgaHeight = 25 from rfl] at hbuf hbuf'
  rw [show vgaWidth = 80 from rfl] at hbuf'
  refine ⟨hcolor'.trans hcolor, fun i => ?_⟩
  rw [hbuf', hbuf, hcolor]
  split_ifs
  all_goals first
    | rfl
    | omega

/-! ### Characters in one row -/

/-- Every store between two states hit a cell of `P`. -/
structure OnlyAt (P : Int → Prop) (v w : Vga) : Prop where
  color : w.color = v.color
  log : ∃ new, w.stores = new ++ v.stores ∧ ∀ i ∈ new, P i
  others : ∀ i, ¬ P i → w.buffer i = v.buffer i

section OnlyAt

variable {P Q : Int → Prop} {w u : Vga}

theorem OnlyAt.refl : OnlyAt P v v := ⟨rfl, ⟨[], rfl, fun _ hi => absurd hi List.not_mem_nil⟩, fun _ _ => rfl⟩

theorem OnlyAt.mono (h : OnlyAt P v w) (hPQ : ∀ i, P i → Q i) : OnlyAt Q v w := by
  obtain ⟨new, hlog, hnew⟩ := h.log
  exact ⟨h.color, ⟨new, hlog, fun i hi => hPQ i (hnew i hi)⟩, fun i hi => h.others i fun hP => hi (hPQ i hP)⟩

theorem OnlyAt.trans (h : OnlyAt P v w) (h' : OnlyAt P w u) : OnlyAt P v u := by
  obtain ⟨new, hlog, hnew⟩ := h.log
  obtain ⟨new', hlog', hnew'⟩ := h'.log
  refine ⟨h'.color.trans h.color, ⟨new' ++ new, ?_, fun i hi => ?_⟩, fun i hi => ?_⟩
  · rw [hlog', hlog, List.append_assoc]
  · exact (List.mem_append.mp hi).elim (hnew' i) (hnew i)
  · rw [h'.others i hi, h.others i hi]

/-- Moving the cursor stores nothing. -/
theorem OnlyAt.setCursor (h : OnlyAt P v w) (x y : Int) : OnlyAt P v (vgaSetCursor w x y) :=
  ⟨h.color, h.log, h.others⟩

theorem onlyAt_store {i : Int} (hi : P i) (e : UInt16) : OnlyAt P v (v.store i e) := by
  refine ⟨rfl, ⟨[i], rfl, fun j hj => ?_⟩, fun j hj => ?_⟩
  · rw [List.mem_singleton.mp hj]
    exact hi
  · refine Function.update_of_ne (fun hji => hj ?_) _ _
    rwa [hji]

end OnlyAt

theorem advance_in_row (hx : v.cursorX < vgaWidth) (hy : v.cursorY < vgaHeight) :
    v.advance = vgaSetCursor v v.cursorX v.cursorY := by
  rw [advance_eq, Vga.wrap, if_neg (Int.not_le.mpr hx), Vga.follow, if_neg (Int.not_le.mpr hy)]

/-- A plain character before the last column: one store, and no wrap. -/
theorem putchar_in_row {c : Byte} (hc : Plain c) (hx : v.cursorX + 1 < vgaWidth) (hy : v.cursorY < vgaHeight) :
    vgaPutchar v c = vgaSetCursor (v.store (v.cursorY * vgaWidth + v.cursorX) (vgaEntry c v.color))
      (v.cursorX + 1) v.cursorY := by
  rw [putchar_plain hc]
  exact advance_in_row hx hy

/-- The cells from column `x` of row `y` on, `n` of them. -/
def Span (x y n : ℕ) (i : Int) : Prop := ((y * 80 + x : ℕ) : Int) ≤ i ∧ i < (y * 80 + x + n : ℕ)

section Row

variable {x y n : ℕ} {line : List Byte}

/-- **Plain characters in one row** are stored side by side. -/
theorem putChars_in_row (hline : ∀ c ∈ line, Plain c) (hx : v.cursorX = x) (hy : v.cursorY = y)
    (hfit : x + line.length < 80) (hrow : y < 25) :
    OnlyAt (Span x y line.length) v (putChars v line) ∧
    (∀ k < line.length, (putChars v line).buffer (y * 80 + x + k : ℕ) = vgaEntry (line.getD k space) v.color) ∧
    (putChars v line).cursorX = (x + line.length : ℕ) ∧ (putChars v line).cursorY = y := by
  induction line generalizing v x with
  | nil => exact ⟨.refl, fun k hk => absurd hk (Nat.not_lt_zero k), hx, hy⟩
  | cons c line ih =>
    rw [List.length_cons] at hfit ⊢
    have hstep := putchar_in_row (v := v) (hline c (by simp)) (by rw [hx, width_eq]; omega)
      (by rw [hy, height_eq]; omega)
    have hcell : v.cursorY * vgaWidth + v.cursorX = ((y * 80 + x : ℕ) : Int) := by
      rw [hx, hy, width_eq]
      omega
    rw [hcell] at hstep
    obtain ⟨honly, hcells, hx', hy'⟩ :=
      ih (v := vgaPutchar v c) (x := x + 1) (fun d hd => hline d (by simp [hd]))
      (by rw [hstep, setCursor_x, hx]; omega) (by rw [hstep, setCursor_y, hy]) (by omega)
    rw [show putChars v (c :: line) = putChars (vgaPutchar v c) line from rfl]
    have hfirst : OnlyAt (Span x y (line.length + 1)) v (vgaPutchar v c) := by
      rw [hstep]
      exact (onlyAt_store (by unfold Span; omega) _).setCursor _ _
    refine ⟨hfirst.trans (honly.mono fun i hi => by unfold Span at *; omega), fun k hk => ?_, ?_, hy'⟩
    · cases k with
      | zero =>
        -- the later characters are stored behind the first
        rw [honly.others _ (by unfold Span; omega), hstep]
        exact Function.update_self _ _ _
      | succ k =>
        have hk' := hcells k (by omega)
        rw [hfirst.color, show y * 80 + (x + 1) + k = y * 80 + x + (k + 1) by omega] at hk'
        rw [hk', List.getD_cons_succ]
    · rw [hx']
      omega

/-- **A line drawn in one row** over `n` cells: the line, and blanks behind it. -/
theorem drawLine_in_row (hline : ∀ c ∈ line, Plain c) (hn : line.length ≤ n) (hfit : x + n < 80)
    (hrow : y < 25) : OnlyAt (Span x y n) v (drawLine v x y n line) ∧
    (∀ k < n, (drawLine v x y n line).buffer (y * 80 + x + k : ℕ) = vgaEntry (line.getD k space) v.color) ∧
    (drawLine v x y n line).cursorX = (x + line.length : ℕ) ∧ (drawLine v x y n line).cursorY = y := by
  obtain ⟨honly, hcells, -, -⟩ := putChars_in_row (v := vgaSetCursor v x y) (plain_blanks n) rfl rfl
    (by rwa [List.length_replicate]) hrow
  rw [List.length_replicate] at honly hcells
  obtain ⟨honly', hcells', hx, hy⟩ := putChars_in_row
    (v := vgaSetCursor (putChars (vgaSetCursor v x y) (List.replicate n space)) x y) hline rfl
      rfl (by omega) hrow
  have hcolor : (putChars (vgaSetCursor v x y) (List.replicate n space)).color = v.color := honly.color
  refine ⟨?_, fun k hk => ?_, hx, hy⟩
  · have hleft : OnlyAt (Span x y n) v (vgaSetCursor v x y) := OnlyAt.refl.setCursor _ _
    exact (hleft.trans (honly.setCursor x y)).trans (honly'.mono fun i hi => by unfold Span at *; omega)
  · by_cases hin : k < line.length
    · exact (hcells' k hin).trans (congrArg (vgaEntry (line.getD k space)) hcolor)
    · -- behind the line the blanks are still there
      refine (honly'.others _ (by unfold Span; omega)).trans ((hcells k hk).trans ?_)
      rw [List.getD_eq_default _ _ (Nat.le_of_not_lt hin), List.getD_replicate _ hk]
      rfl

end Row

/-! ### Characters read back -/

/-- The character that a cell shows. -/
def shownChar (e : UInt16) : Byte := e.toUInt8

theorem shownChar_vgaEntry {c : Byte} (hc : c < 128) (color : UInt8) : shownChar (vgaEntry c color) = c := by
  have hlow := c.toNat_lt
  refine UInt8.toNat_inj.mp ?_
  rw [vgaEntry, if_pos hc, shownChar, UInt16.toNat_toUInt8, UInt16.toNat_or, UInt16.toNat_shiftLeft,
    UInt8.toNat_toUInt16, UInt8.toNat_toUInt16]
  show (c.toNat ||| color.toNat <<< 8 % 2 ^ 16) % 2 ^ 8 = c.toNat
  -- the attribute is in the high byte
  rw [Nat.or_mod_two_pow, Nat.mod_mod_of_dvd _ (by decide), Nat.shiftLeft_eq, Nat.mul_mod_left, Nat.or_zero]
  exact Nat.mod_eq_of_lt hlow

end FoxOS
