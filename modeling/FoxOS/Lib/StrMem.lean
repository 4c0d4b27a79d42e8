import FoxOS.Lib.ByteMem

/-!
# FoxOS.Lib.StrMem — NUL-terminated strings in a byte memory

`StrAt m a s`: the string `s` and its terminator stand at address `a`.  The pointer loops of C code over such
strings are two: `skip` (`while (p(*a)) a++`) and `copyWhile` (`while (p(*src)) *dst++ = *src++`), both with
fuel.  On a string they stop at the first character that fails `p`, the terminator at the latest, and are
`takeWhile` and `dropWhile` on it (`skip_spec`, `copyWhile_spec`).  `Rest` follows a pointer through one string
over several loops.
-/

namespace StrMem

open ByteMem

/-- The string stands at `a`, with its terminator. -/
def StrAt (m : Mem) : ℕ → List UInt8 → Prop
  | a, [] => m a = 0
  | a, c :: s => c ≠ 0 ∧ m a = c ∧ StrAt m (a + 1) s

/-- `while (p(*a)) a++`. -/
def skip (p : UInt8 → Bool) (m : Mem) : ℕ → ℕ → Option ℕ
  | 0, _ => none
  | fuel + 1, a => if p (m a) then skip p m fuel (a + 1) else some a

/-- The pointers and the memory behind a copying loop. -/
structure Copied where
  dst : ℕ
  src : ℕ
  mem : Mem

/-- `while (p(*src)) *dst++ = *src++`. -/
def copyWhile (p : UInt8 → Bool) : ℕ → ℕ → ℕ → Mem → Option Copied
  | 0, _, _, _ => none
  | fuel + 1, dst, src, m =>
    if p (m src) then copyWhile p fuel (dst + 1) (src + 1) (Function.update m dst (m src))
      else some ⟨dst, src, m⟩

variable {m m' : Mem} {a dst src fuel : ℕ} {s t : List UInt8} {p : UInt8 → Bool}

/-! ### Strings and stores -/

theorem StrAt.congr (h : StrAt m a s) (hm : ∀ x, a ≤ x → x ≤ a + s.length → m' x = m x) : StrAt m' a s := by
  induction s generalizing a with
  | nil => exact (hm a (by omega) (by simp)).trans h
  | cons c s ih =>
    rw [List.length_cons] at hm
    obtain ⟨hc, ha, hs⟩ := h
    exact ⟨hc, (hm a (by omega) (by omega)).trans ha, ih hs fun x h1 h2 => hm x (by omega) (by omega)⟩

/-- A string in a memory whose addresses are shifted. -/
theorem StrAt.reindex {k : ℕ} (h : StrAt m (a + k) s) (hm : ∀ i, m' i = m (i + k)) : StrAt m' a s := by
  induction s generalizing a with
  | nil => exact (hm a).trans h
  | cons c s ih =>
    obtain ⟨hc, ha, hs⟩ := h
    exact ⟨hc, (hm a).trans ha, ih (by rwa [Nat.add_right_comm])⟩

theorem StrAt.nul_not_mem (h : StrAt m a s) : (0 : UInt8) ∉ s := by
  induction s generalizing a with
  | nil => exact List.not_mem_nil
  | cons c s ih => exact List.not_mem_cons_of_ne_of_not_mem h.1.symm (ih h.2.2)

/-- The first byte of a string. -/
theorem StrAt.head (h : StrAt m a s) : m a = s.headD 0 := by
  cases s with
  | nil => exact h
  | cons c s => exact h.2.1

theorem StrAt.head_eq_zero_iff (h : StrAt m a s) : m a = 0 ↔ s = [] := by
  rw [h.head]
  cases s with
  | nil => exact iff_of_true rfl rfl
  | cons c s => exact iff_of_false h.1 (List.cons_ne_nil c s)

theorem update_eq_write (m : Mem) (a : ℕ) (b : UInt8) : Function.update m a b = write m a [b] := by
  rw [← write_cons, write_nil]

/-- Two strings of stores, one behind the other. -/
theorem write_append (m : Mem) (a : ℕ) (s t : List UInt8) :
    write (write m a s) (a + s.length) t = write m a (s ++ t) := by
  induction s generalizing m a with
  | nil => rw [write_nil, List.length_nil, Nat.add_zero, List.nil_append]
  | cons c s ih =>
    rw [← write_cons, List.length_cons, Nat.add_comm s.length 1, ← Nat.add_assoc, ih, write_cons,
      List.cons_append]

/-- A longer string of stores hides a shorter one at the same place. -/
theorem write_write (m : Mem) (a : ℕ) (h : s.length ≤ t.length) : write (write m a s) a t = write m a t := by
  ext1 x
  by_cases hx : a ≤ x ∧ x < a + t.length
  · rw [write, if_pos hx, write, if_pos hx]
  · rw [write_of_apart (by omega), write_of_apart (by omega), write_of_apart (by omega)]

/-- A stored string and its terminator leave the bytes around them. -/
theorem write_nul_of_apart {x : ℕ} (h : x < a ∨ a + s.length < x) : write m a (s ++ [0]) x = m x :=
  write_of_apart (by rw [List.length_append, List.length_singleton]; omega)

/-- **A stored string** can be read back. -/
theorem strAt_write (m : Mem) (a : ℕ) (hs : (0 : UInt8) ∉ s) : StrAt (write m a (s ++ [0])) a s := by
  induction s generalizing m a with
  | nil =>
    show write m a [0] a = 0
    rw [← update_eq_write, Function.update_self]
  | cons c s ih =>
    rw [List.mem_cons, not_or] at hs
    rw [List.cons_append, ← write_cons]
    refine ⟨fun h0 => hs.1 h0.symm, ?_, ih _ _ hs.2⟩
    rw [write_of_apart (by omega), Function.update_self]

/-! ### The loops -/

/-- **Skipping** stops at the first character that fails `p`. -/
theorem skip_spec (hp : p 0 = false) (h : StrAt m a s) (hf : s.length < fuel) :
    skip p m fuel a = some (a + (s.takeWhile p).length) ∧
      StrAt m (a + (s.takeWhile p).length) (s.dropWhile p) := by
  induction s generalizing a fuel with
  | nil =>
    obtain ⟨f, rfl⟩ : ∃ f, fuel = f + 1 := ⟨fuel - 1, by omega⟩
    have ha : m a = 0 := h
    rw [skip, ha, hp]
    exact ⟨rfl, h⟩
  | cons c s ih =>
    rw [List.length_cons] at hf
    obtain ⟨f, rfl⟩ : ∃ f, fuel = f + 1 := ⟨fuel - 1, by omega⟩
    obtain ⟨hc, ha, hs⟩ := h
    rw [skip, ha]
    by_cases hpc : p c = true
    · obtain ⟨hrun, hstr⟩ := ih hs (show s.length < f by omega)
      have hlen : a + 1 + (s.takeWhile p).length = a + ((s.takeWhile p).length + 1) := by omega
      rw [hlen] at hrun hstr
      rw [if_pos hpc, List.takeWhile_cons_of_pos hpc, List.dropWhile_cons_of_pos hpc, List.length_cons]
      exact ⟨hrun, hstr⟩
    · rw [if_neg hpc, List.takeWhile_cons_of_neg hpc, List.dropWhile_cons_of_neg hpc]
      exact ⟨rfl, hc, ha, hs⟩

/-- **Copying** stops there too, when the target does not touch the string. -/
theorem copyWhile_spec (hp : p 0 = false) (h : StrAt m src s)
    (hapart : dst + (s.takeWhile p).length ≤ src ∨ src + s.length < dst) (hf : s.length < fuel) :
    copyWhile p fuel dst src m = some
        ⟨dst + (s.takeWhile p).length, src + (s.takeWhile p).length, write m dst (s.takeWhile p)⟩ ∧
      StrAt (write m dst (s.takeWhile p)) (src + (s.takeWhile p).length) (s.dropWhile p) := by
  induction s generalizing m dst src fuel with
  | nil =>
    obtain ⟨f, rfl⟩ : ∃ f, fuel = f + 1 := ⟨fuel - 1, by omega⟩
    have hsrc : m src = 0 := h
    rw [copyWhile, hsrc, hp, List.takeWhile_nil, write_nil]
    exact ⟨rfl, h⟩
  | cons c s ih =>
    rw [List.length_cons] at hf hapart
    obtain ⟨f, rfl⟩ : ∃ f, fuel = f + 1 := ⟨fuel - 1, by omega⟩
    obtain ⟨hc, hsrc, hs⟩ := h
    rw [copyWhile, hsrc]
    by_cases hpc : p c = true
    · rw [List.takeWhile_cons_of_pos hpc, List.length_cons] at hapart
      have hle : (s.takeWhile p).length ≤ s.length := (List.takeWhile_prefix p).length_le
      have hnext : StrAt (Function.update m dst c) (src + 1) s :=
        hs.congr fun x h1 h2 => Function.update_of_ne (by omega) c m
      obtain ⟨hrun, hstr⟩ := ih hnext (show dst + 1 + _ ≤ src + 1 ∨ src + 1 + s.length < dst + 1 by omega)
        (show s.length < f by omega)
      rw [write_cons] at hrun hstr
      have hdst : dst + 1 + (s.takeWhile p).length = dst + ((s.takeWhile p).length + 1) := by omega
      have hsrc' : src + 1 + (s.takeWhile p).length = src + ((s.takeWhile p).length + 1) := by omega
      rw [hdst, hsrc'] at hrun
      rw [hsrc'] at hstr
      rw [if_pos hpc, List.takeWhile_cons_of_pos hpc, List.dropWhile_cons_of_pos hpc, List.length_cons]
      exact ⟨hrun, hstr⟩
    · rw [if_neg hpc, List.takeWhile_cons_of_neg hpc, List.dropWhile_cons_of_neg hpc, write_nil]
      exact ⟨rfl, hc, hsrc, hs⟩

/-! ### A pointer that moves through a string -/

/-- `s` at `a` is what is left of a string of `n` characters at `b`. -/
structure Rest (m : Mem) (b n a : ℕ) (s : List UInt8) : Prop where
  str : StrAt m a s
  ge : b ≤ a
  ends : a + s.length = b + n

variable {b n : ℕ}

theorem StrAt.rest (h : StrAt m a s) : Rest m a s.length a s := ⟨h, le_rfl, rfl⟩

theorem Rest.congr (h : Rest m b n a s) (hm : ∀ x, b ≤ x → x ≤ b + n → m' x = m x) : Rest m' b n a s :=
  ⟨h.str.congr fun x h1 h2 => hm x (h.ge.trans h1) (h.ends ▸ h2), h.ge, h.ends⟩

theorem length_takeWhile_add (p : UInt8 → Bool) (s : List UInt8) :
    (s.takeWhile p).length + (s.dropWhile p).length = s.length := by
  rw [← List.length_append, List.takeWhile_append_dropWhile]

theorem Rest.skip (h : Rest m b n a s) (hp : p 0 = false) (hf : n < fuel) :
    ∃ a', skip p m fuel a = some a' ∧ Rest m b n a' (s.dropWhile p) := by
  have hlen := length_takeWhile_add p s
  have hge := h.ge
  have hends := h.ends
  obtain ⟨hrun, hstr⟩ := skip_spec hp h.str (show s.length < fuel by omega)
  exact ⟨_, hrun, hstr, by omega, by omega⟩

/-- A copy to a place that the whole string does not touch, and its terminator. -/
theorem Rest.copy (h : Rest m b n a s) (hp : p 0 = false)
    (hapart : dst + (s.takeWhile p).length < b ∨ b + n < dst) (hf : n < fuel) :
    ∃ r, copyWhile p fuel dst a m = some r ∧
      Function.update r.mem r.dst 0 = write m dst (s.takeWhile p ++ [0]) ∧
      Rest (write m dst (s.takeWhile p ++ [0])) b n r.src (s.dropWhile p) := by
  have hlen := length_takeWhile_add p s
  have hge := h.ge
  have hends := h.ends
  obtain ⟨hrun, hstr⟩ :=
    copyWhile_spec hp h.str (show dst + (s.takeWhile p).length ≤ a ∨ a + s.length < dst by omega)
    (show s.length < fuel by omega)
  have hmem : Function.update (write m dst (s.takeWhile p)) (dst + (s.takeWhile p).length) 0 =
      write m dst (s.takeWhile p ++ [0]) := by rw [update_eq_write, write_append]
  refine ⟨_, hrun, hmem, ?_⟩
  rw [← hmem]
  have hrest : Rest (write m dst (s.takeWhile p)) b n (a + (s.takeWhile p).length) (s.dropWhile p) :=
    ⟨hstr, by omega, by omega⟩
  exact hrest.congr fun x h1 h2 => Function.update_of_ne (by omega) 0 _

end StrMem
