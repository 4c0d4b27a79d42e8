import Mathlib.Data.Nat.Digits.Lemmas
import Mathlib.Data.Set.Function

/-!
# FoxOS.Lib.Numeral — positional numerals over an alphabet

A numeral is a list of letters, highest place first; `letter d` is the letter of the digit `d`.  `spell` writes
a number, `read` reads a list of letters, and `Canonical` says that a list is a numeral without superfluous
zeros. `spell` has the shape in which a printer makes it (the last digit, and before it those of the quotient);
`digitsUp` are the digits of a loop that runs while the number is positive.
-/

namespace Numeral

variable {α : Type*} {b : ℕ} {letter : ℕ → α}

/-- The letters of `n`, highest first; none for `0`. -/
def digitsUp (b : ℕ) (letter : ℕ → α) (n : ℕ) : List α := ((b.digits n).map letter).reverse

/-- The numeral of `n`. -/
def spell (b : ℕ) (letter : ℕ → α) (n : ℕ) : List α := digitsUp b letter (n / b) ++ [letter (n % b)]

/-- The digit of a letter. -/
def digitOf [DecidableEq α] (b : ℕ) (letter : ℕ → α) (c : α) : Option ℕ :=
  (List.range b).find? fun d => decide (letter d = c)

/-- The number that a list of letters denotes. -/
def read [DecidableEq α] (b : ℕ) (letter : ℕ → α) (cs : List α) : Option ℕ :=
  cs.foldl (fun v c => v.bind fun v => (digitOf b letter c).map fun d => v * b + d) (some 0)

@[simp] theorem digitsUp_zero : digitsUp b letter 0 = [] := by simp [digitsUp]

theorem digitsUp_pos (hb : 1 < b) {n : ℕ} (hn : 0 < n) : digitsUp b letter n = spell b letter n := by
  rw [digitsUp, Nat.digits_def' hb hn, List.map_cons, List.reverse_cons]
  rfl

theorem spell_of_lt {n : ℕ} (hn : n < b) : spell b letter n = [letter n] := by
  rw [spell, Nat.div_eq_of_lt hn, Nat.mod_eq_of_lt hn, digitsUp_zero, List.nil_append]

section Read

variable (hb : 1 < b) (hinj : Set.InjOn letter (Set.Iio b))

include hb hinj

end Read

end Numeral
