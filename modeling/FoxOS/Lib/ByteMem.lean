import Mathlib.Algebra.Group.Nat.Defs
import Mathlib.Data.List.GetD
import Mathlib.Logic.Function.Basic
import Mathlib.Tactic.IntervalCases
import Mathlib.Tactic.SplitIfs

/-!
# FoxOS.Lib.ByteMem — little-endian words in a byte memory

A memory is a function from addresses to bytes.  `store32` and `load32` move words of four bytes, `load64` reads
two of them.  A word is read back where it was stored and nowhere else (`load32_store32_self`,
`load32_store32_apart`).  `fill` stores a sequence of words at a fixed distance, the shape of most loops over
memory: `fill_succ_front` runs it from the front, `load32_fill` reads it back, `load32_fill_apart` is its frame.
`copy` and `write` are the memories behind a block copy (`copy_word_front`) and a string of byte stores
(`write_cons`); `Spells` says what stands in the memory.
-/

namespace ByteMem

/-- A byte memory. -/
abbrev Mem := ℕ → UInt8

/-- A fact about all bytes is checked byte by byte. -/
theorem forall_byte {p : UInt8 → Prop} (h : ∀ n < 256, p (UInt8.ofNat n)) (b : UInt8) : p b := by
  have hb := h b.toNat b.toNat_lt
  rwa [UInt8.ofNat_toNat] at hb

/-- Byte `i` of a word. -/
def byteOf (w : UInt32) (i : ℕ) : UInt8 := UInt8.ofNat (w.toNat / 256 ^ i)

/-- Store a word at `a`, lowest byte first. -/
def store32 (m : Mem) (a : ℕ) (w : UInt32) : Mem := fun x =>
  if a ≤ x ∧ x < a + 4 then byteOf w (x - a) else m x

def load16 (m : Mem) (a : ℕ) : ℕ := (m a).toNat + 2 ^ 8 * (m (a + 1)).toNat

/-- The word at `a`. -/
def load32 (m : Mem) (a : ℕ) : ℕ :=
  (m a).toNat + 2 ^ 8 * (m (a + 1)).toNat + 2 ^ 16 * (m (a + 2)).toNat + 2 ^ 24 * (m (a + 3)).toNat

/-- The double word at `a`. -/
def load64 (m : Mem) (a : ℕ) : ℕ := load32 m a + 2 ^ 32 * load32 m (a + 4)

variable {m : Mem} {a b : ℕ} {w : UInt32}

theorem store32_apply {i : ℕ} (hi : i < 4) : store32 m a w (a + i) = byteOf w i := by
  rw [store32, if_pos (by omega), Nat.add_sub_cancel_left]

theorem store32_of_apart {x : ℕ} (h : x < a ∨ a + 4 ≤ x) : store32 m a w x = m x := by
  rw [store32, if_neg (by omega)]

theorem load32_store32_self : load32 (store32 m a w) a = w.toNat := by
  have hw := w.toNat_lt
  have h0 : store32 m a w a = byteOf w 0 := store32_apply (i := 0) (by omega)
  rw [load32, h0, store32_apply (by omega), store32_apply (by omega), store32_apply (by omega)]
  simp only [byteOf, UInt8.toNat_ofNat']
  omega

theorem load32_store32_apart (h : b + 4 ≤ a ∨ a + 4 ≤ b) : load32 (store32 m a w) b = load32 m b := by
  simp only [load32]
  rw [store32_of_apart (by omega), store32_of_apart (by omega), store32_of_apart (by omega),
    store32_of_apart (by omega)]

/-! ### Words at a fixed distance -/

/-- Store the words `f 0, …, f (n - 1)` at `a, a + k, …`. -/
def fill (m : Mem) (a k : ℕ) (f : ℕ → UInt32) : ℕ → Mem
  | 0 => m
  | n + 1 => store32 (fill m a k f n) (a + k * n) (f n)

variable {k n : ℕ} {f : ℕ → UInt32}

/-- The same from the front: the first word, then the others. -/
theorem fill_succ_front (m : Mem) (a k : ℕ) (f : ℕ → UInt32) (n : ℕ) :
    fill (store32 m a (f 0)) (a + k) k (fun i => f (i + 1)) n = fill m a k f (n + 1) := by
  induction n with
  | zero => simp [fill]
  | succ n ih =>
    have haddr : a + k + k * n = a + k * (n + 1) := by
      rw [Nat.mul_succ]
      omega
    rw [fill, ih, haddr]
    rfl

theorem load32_fill_apart (h : ∀ i < n, a + k * i + 4 ≤ b ∨ b + 4 ≤ a + k * i) :
    load32 (fill m a k f n) b = load32 m b := by
  induction n with
  | zero => rfl
  | succ n ih =>
    rw [fill, load32_store32_apart (h n (Nat.lt_succ_self n)).symm, ih fun i hi => h i (Nat.lt_succ_of_lt hi)]

/-- **Reading back** one of the words. -/
theorem load32_fill (hk : 4 ≤ k) {i : ℕ} (hi : i < n) : load32 (fill m a k f n) (a + k * i) = (f i).toNat := by
  induction n with
  | zero => exact absurd hi (Nat.not_lt_zero i)
  | succ n ih =>
    rcases Nat.lt_succ_iff_lt_or_eq.mp hi with hlt | rfl
    · have hstep : k * i + k ≤ k * n := Nat.mul_le_mul_left k hlt
      rw [fill, load32_store32_apart (by omega), ih hlt]
    · exact load32_store32_self

/-- A byte that none of the words covers. -/
theorem fill_of_apart {x : ℕ} (h : ∀ i < n, x < a + k * i ∨ a + k * i + 4 ≤ x) : fill m a k f n x = m x := by
  induction n with
  | zero => rfl
  | succ n ih => rw [fill, store32_of_apart (h n (Nat.lt_succ_self n)),
    ih fun i hi => h i (Nat.lt_succ_of_lt hi)]

/-! ### Copies and strings of bytes -/

/-- The memory with the `n` bytes at `src` also at `dst`. -/
def copy (m : Mem) (dst src n : ℕ) : Mem := fun x => if dst ≤ x ∧ x < dst + n then m (src + (x - dst)) else m x

/-- The memory with the bytes of the list from `a` on. -/
def write (m : Mem) (a : ℕ) (bs : List UInt8) : Mem := fun x =>
  if a ≤ x ∧ x < a + bs.length then bs.getD (x - a) 0 else m x

theorem byteOf_load32 {i : ℕ} (hi : i < 4) : byteOf (UInt32.ofNat (load32 m a)) i = m (a + i) := by
  have h0 := (m a).toNat_lt
  have h1 := (m (a + 1)).toNat_lt
  have h2 := (m (a + 2)).toNat_lt
  have h3 := (m (a + 3)).toNat_lt
  have hword : (UInt32.ofNat (load32 m a)).toNat = load32 m a := by
    rw [UInt32.toNat_ofNat', load32]
    omega
  apply UInt8.toNat_inj.mp
  rw [byteOf, hword, UInt8.toNat_ofNat', load32]
  interval_cases i
  · change _ = (m a).toNat
    omega
  all_goals omega

theorem load32_congr {m' : Mem} (h : ∀ i < 4, m (a + i) = m' (a + i)) : load32 m a = load32 m' a := by
  have h0 : m a = m' a := h 0 (by omega)
  rw [load32, load32, h0, h 1 (by omega), h 2 (by omega), h 3 (by omega)]

/-- **A copy from the front**, word by word, when the source lies in front of the target. -/
theorem copy_word_front {dst src : ℕ} (m : Mem) (n : ℕ) (h : src + 4 + n ≤ dst) :
    copy (store32 m dst (UInt32.ofNat (load32 m src))) (dst + 4) (src + 4) n = copy m dst src (n + 4) := by
  ext1 x
  unfold copy
  by_cases hfirst : dst ≤ x ∧ x < dst + 4
  · -- the word just copied
    obtain ⟨i, rfl⟩ : ∃ i, x = dst + i := ⟨x - dst, by omega⟩
    rw [if_neg (by omega), if_pos (by omega), store32_apply (by omega), byteOf_load32 (by omega),
      Nat.add_sub_cancel_left]
  · by_cases hrest : dst + 4 ≤ x ∧ x < dst + 4 + n
    · rw [if_pos hrest, if_pos (by omega), store32_of_apart (by omega)]
      congr 1
      omega
    · rw [if_neg hrest, if_neg (by omega), store32_of_apart (by omega)]

theorem write_nil : write m a [] = m := by
  ext1 x
  rw [write, if_neg (by simp)]

theorem write_cons (m : Mem) (a : ℕ) (b : UInt8) (bs : List UInt8) :
    write (Function.update m a b) (a + 1) bs = write m a (b :: bs) := by
  ext1 x
  unfold write
  by_cases hx : x = a
  · subst hx
    rw [if_neg (by omega), if_pos (by simp), Function.update_self, Nat.sub_self]
    rfl
  · by_cases hin : a + 1 ≤ x ∧ x < a + 1 + bs.length
    · obtain ⟨i, rfl⟩ : ∃ i, x = a + 1 + i := ⟨x - (a + 1), by omega⟩
      rw [if_pos hin, if_pos (by rw [List.length_cons]; omega), Nat.add_sub_cancel_left, Nat.add_assoc,
        Nat.add_sub_cancel_left, Nat.add_comm 1 i, List.getD_cons_succ]
    · rw [if_neg hin, if_neg (by rw [List.length_cons]; omega), Function.update_of_ne hx]

theorem write_apply {bs : List UInt8} {i : ℕ} (hi : i < bs.length) : write m a bs (a + i) = bs.getD i 0 := by
  rw [write, if_pos (by omega), Nat.add_sub_cancel_left]

theorem write_of_apart {x : ℕ} {bs : List UInt8} (h : x < a ∨ a + bs.length ≤ x) : write m a bs x = m x :=
  if_neg (by omega)

/-- The bytes of the list stand at `a`. -/
def Spells (m : Mem) (a : ℕ) (bs : List UInt8) : Prop := ∀ i < bs.length, m (a + i) = bs.getD i 0

theorem Spells.head {b : UInt8} {bs : List UInt8} (h : Spells m a (b :: bs)) : m a = b := h 0 (Nat.succ_pos _)

theorem Spells.tail {b : UInt8} {bs : List UInt8} (h : Spells m a (b :: bs)) :
    Spells m (a + 1) bs := fun i hi => by
  rw [Nat.add_right_comm]
  exact h (i + 1) (Nat.succ_lt_succ hi)

theorem Spells.congr {m' : Mem} {bs : List UInt8} (h : Spells m a bs)
    (hm : ∀ x, a ≤ x → x < a + bs.length → m' x = m x) : Spells m' a bs := fun i hi => by
  rw [hm _ (by omega) (by omega), h i hi]

/-- A part of what stands there. -/
theorem Spells.slice {bs : List UInt8} (h : Spells m a bs) (k n : ℕ) :
    Spells m (a + k) ((bs.drop k).take n) := by
  intro i hi
  rw [List.length_take, List.length_drop] at hi
  rw [Nat.add_assoc, h (k + i) (by omega), List.getD_eq_getElem?_getD, List.getD_eq_getElem?_getD,
    List.getElem?_take_of_lt (by omega), List.getElem?_drop]

theorem Spells.take {bs : List UInt8} (h : Spells m a bs) (n : ℕ) : Spells m a (bs.take n) := h.slice 0 n

end ByteMem
