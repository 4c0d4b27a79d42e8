import Mathlib.Data.List.TakeWhile
import Mathlib.Data.List.GetD
import Mathlib.Logic.Function.Basic

/-!
# FoxOS.CString — bytes, NUL-terminated strings and the faults of fixed-size buffers

A C string is the list of its bytes without the terminator; `CString` carries the fact that none of
them is NUL.  A `char[n]` whose bytes behind the terminator matter is a function `ℕ → Byte`: `cstr`
reads the string in it and `strcpy` overwrites its front.  A local buffer of which only the string is
ever read is the string itself, stored with `fit`, which faults when string and terminator do not
fit.  An access outside a buffer is undefined behaviour in C: it ends the run with a `Fault`.
-/

namespace FoxOS

abbrev Byte := UInt8

/-- The fixed-size buffers of the kernel. -/
inductive Buffer
  | name | component | parentPath | newName | path | arg1 | arg2 | fullPath | currentDir | inputBuffer
  | listBuffer | digits | format | formatArgs
  deriving DecidableEq

/-- Why a run ends early: an access outside a buffer, or the machine is switched off. -/
inductive Fault
  | outOfBounds (b : Buffer)
  | halt
  deriving DecidableEq

def str (s : String) : List Byte := s.toList.map (fun c => UInt8.ofNat c.toNat)

def slash : Byte := 47
def newline : Byte := 10
def space : Byte := 32
def carriageReturn : Byte := 13
def tab : Byte := 9
def backspace : Byte := 8
def percent : Byte := 37

/-- A NUL-terminated string, without its terminator. -/
structure CString where
  val : List Byte
  noNul : (0 : Byte) ∉ val
  deriving DecidableEq

/-- A literal. -/
abbrev lit (s : String) (h : (0 : Byte) ∉ str s := by decide) : CString := ⟨str s, h⟩

/-! ### `strcmp` and `strncmp` -/

def strcmp : List Byte → List Byte → Int
  | a :: as, b :: bs => if a = b then strcmp as bs else (a.toNat : Int) - b.toNat
  | a :: _, [] => a.toNat
  | [], b :: _ => -b.toNat
  | [], [] => 0

def strncmp : List Byte → List Byte → ℕ → Int
  | _, _, 0 => 0
  | a :: as, b :: bs, n + 1 => if a = b then strncmp as bs n else (a.toNat : Int) - b.toNat
  | a :: _, [], _ + 1 => a.toNat
  | [], b :: _, _ + 1 => -b.toNat
  | [], [], _ + 1 => 0

theorem byte_toNat_ne_zero {a : Byte} (h : a ≠ 0) : a.toNat ≠ 0 := by
  intro h0
  exact h (UInt8.toNat_inj.mp (by simpa using h0))

theorem strcmp_eq_zero {as bs : List Byte} (ha : (0 : Byte) ∉ as) (hb : (0 : Byte) ∉ bs) :
    strcmp as bs = 0 ↔ as = bs := by
  induction as generalizing bs with
  | nil =>
    cases bs with
    | nil => simp [strcmp]
    | cons b bs =>
      have := byte_toNat_ne_zero (a := b) (by rintro rfl; simp at hb)
      simp only [strcmp, reduceCtorEq, iff_false]
      omega
  | cons a as ih =>
    cases bs with
    | nil =>
      have := byte_toNat_ne_zero (a := a) (by rintro rfl; simp at ha)
      simp only [strcmp, reduceCtorEq, iff_false]
      omega
    | cons b bs =>
      simp only [List.mem_cons, not_or] at ha hb
      simp only [strcmp, List.cons.injEq]
      by_cases hab : a = b
      · simp only [hab, if_true, true_and]
        exact ih ha.2 hb.2
      · simp only [hab, if_false, false_and, iff_false]
        intro h
        exact hab (UInt8.toNat_inj.mp (by omega))

/-- Compared over the length of the second string, the first one has to start with it. -/
theorem strncmp_eq_zero {as bs : List Byte} (hb : (0 : Byte) ∉ bs) :
    strncmp as bs bs.length = 0 ↔ bs <+: as := by
  induction bs generalizing as with
  | nil => simp [strncmp]
  | cons b bs ih =>
    simp only [List.mem_cons, not_or] at hb
    cases as with
    | nil =>
      have := byte_toNat_ne_zero (a := b) (fun h => hb.1 h.symm)
      simp only [List.length_cons, strncmp, List.prefix_nil, reduceCtorEq, iff_false]
      omega
    | cons a as =>
      simp only [List.length_cons, strncmp, List.cons_prefix_cons]
      by_cases hab : a = b
      · simp only [hab, if_true, true_and]
        exact ih hb.2
      · simp only [hab, if_false, Ne.symm hab, false_and, iff_false]
        intro h
        exact hab (UInt8.toNat_inj.mp (by omega))

/-! ### Strings in a byte array -/

/-- The string at the front of the first `n` bytes of `m`. -/
def cstr (m : ℕ → Byte) : ℕ → List Byte
  | 0 => []
  | n + 1 => if m 0 = 0 then [] else m 0 :: cstr (fun i => m (i + 1)) n

/-- Overwrite the front of `m` with `src` and a terminator; the bytes behind stay. -/
def strcpy (m : ℕ → Byte) (src : List Byte) : ℕ → Byte := fun i =>
  if i < src.length then src.getD i 0 else if i = src.length then 0 else m i

/-- There is a terminator among the first `n` bytes. -/
def Terminated (m : ℕ → Byte) (n : ℕ) : Prop := ∃ i < n, m i = 0

theorem nul_not_mem_cstr (m : ℕ → Byte) (n : ℕ) : (0 : Byte) ∉ cstr m n := by
  induction n generalizing m with
  | zero => simp [cstr]
  | succ n ih =>
    unfold cstr
    by_cases h : m 0 = 0
    · simp [h]
    · rw [if_neg h]
      simp only [List.mem_cons, not_or]
      exact ⟨fun h' => h h'.symm, ih _⟩

theorem length_cstr_lt {m : ℕ → Byte} {n : ℕ} (h : Terminated m n) : (cstr m n).length < n := by
  obtain ⟨i, hi, hm⟩ := h
  induction n generalizing m i with
  | zero => omega
  | succ n ih =>
    unfold cstr
    by_cases h0 : m 0 = 0
    · simp [h0]
    · rw [if_neg h0]
      cases i with
      | zero => exact absurd hm h0
      | succ i =>
        have := ih (m := fun i => m (i + 1)) i (by omega) hm
        simp only [List.length_cons]
        omega

theorem cstr_strcpy {src : List Byte} (h0 : (0 : Byte) ∉ src) {n : ℕ} (hn : src.length < n)
    (m : ℕ → Byte) : cstr (strcpy m src) n = src := by
  induction src generalizing n m with
  | nil =>
    cases n with
    | zero => simp at hn
    | succ n => simp [cstr, strcpy]
  | cons c cs ih =>
    simp only [List.mem_cons, not_or] at h0
    cases n with
    | zero => simp at hn
    | succ n =>
      have hc : strcpy m (c :: cs) 0 = c := by simp [strcpy]
      have htl : (fun i => strcpy m (c :: cs) (i + 1)) = strcpy (fun i => m (i + 1)) cs := by
        funext i
        simp [strcpy]
      have hc0 : ¬ c = 0 := fun h => h0.1 h.symm
      rw [cstr, hc, if_neg hc0, htl, ih h0.2 (by simpa using hn)]

theorem terminated_strcpy {src : List Byte} {n : ℕ} (hn : src.length < n) (m : ℕ → Byte) :
    Terminated (strcpy m src) n :=
  ⟨src.length, hn, by simp [strcpy]⟩

theorem cstr_update_zero (m : ℕ → Byte) (n : ℕ) : cstr (Function.update m 0 0) n = [] := by
  cases n with
  | zero => rfl
  | succ n => simp [cstr]

/-! ### Buffers of which only the string is read -/

/-- Store a string and its terminator in a buffer of `cap` bytes. -/
def fit (b : Buffer) (cap : ℕ) (s : List Byte) : Except Fault (List Byte) :=
  if s.length < cap then .ok s else .error (.outOfBounds b)

theorem fit_eq_ok {b : Buffer} {cap : ℕ} {s t : List Byte} :
    fit b cap s = .ok t ↔ s.length < cap ∧ t = s := by
  unfold fit
  by_cases h : s.length < cap
  · simp [h, eq_comm]
  · simp [h]

theorem fit_of_lt {b : Buffer} {cap : ℕ} {s : List Byte} (h : s.length < cap) :
    fit b cap s = .ok s := fit_eq_ok.mpr ⟨h, rfl⟩

/-- A computation of two stages ends normally when both stages do. -/
theorem bind_ok_iff {A B : Type} {x : Except Fault A} {f : A → Except Fault B} {r : B} :
    x.bind f = .ok r ↔ ∃ v, x = .ok v ∧ f v = .ok r := by
  rcases x with e | v
  · exact ⟨fun h => (nomatch h), fun ⟨_, h, _⟩ => (nomatch h)⟩
  · exact ⟨fun h => ⟨v, rfl, h⟩, fun ⟨_, h1, h2⟩ => by cases h1; exact h2⟩

end FoxOS
