import FoxOS.Lib.Access

/-!
# FoxOS.Lib.PageWalk — the page walk of long mode

The translation of a 48-bit linear address with four levels of tables: an index of nine bits at each level,
entries of eight bytes with the flags present, writable and page size, pages of 1 GiB, 2 MiB and 4 KiB.  Bits
that must be zero are checked; the width of physical addresses is a parameter (`PhysWidth`), and execute-disable
is not enabled. `paged` is the access through such a walk, which marks the entries it uses as accessed and
dirty.
-/

namespace PageWalk

open ByteMem

/-- The number of bits of a physical address. -/
structure PhysWidth where
  bits : ℕ
  ge : 32 ≤ bits
  le : bits ≤ 52

inductive PageSize
  | gib1 | mib2 | kib4
  deriving DecidableEq

/-- The outcome of a walk. -/
inductive Outcome
  | mapped (phys : ℕ) (writable : Bool) (size : PageSize)
  | notPresent
  | reserved
  deriving DecidableEq

/-! ### Entries -/

/-- Bit `i` of an entry. -/
def bit (e i : ℕ) : Bool := e / 2 ^ i % 2 = 1

def present (e : ℕ) : Bool := bit e 0

def writable (e : ℕ) : Bool := bit e 1

def pageSize (e : ℕ) : Bool := bit e 7

/-- The address in an entry, without the low `k` bits: the page or table it points to. -/
def base (e k : ℕ) : ℕ := e % 2 ^ 52 / 2 ^ k * 2 ^ k

/-- Bits above the physical width, and execute-disable, have to be zero. -/
def highReserved (w : PhysWidth) (e : ℕ) : Bool := decide (e % 2 ^ 52 / 2 ^ w.bits ≠ 0 ∨ e / 2 ^ 63 ≠ 0)

/-- In an entry of a large page the address bits below the page size, but for bit 12, have to be zero. -/
def lowReserved (e k : ℕ) : Bool := decide (e % 2 ^ k / 2 ^ 13 ≠ 0)

/-- The index of an address into the table whose entries cover `2 ^ k` bytes. -/
def index (v k : ℕ) : ℕ := v / 2 ^ k % 512

def entry (m : Mem) (table i : ℕ) : ℕ := load64 m (table + 8 * i)

/-! ### The walk -/

/-- The last level: a page of 4 KiB. -/
def walkPT (w : PhysWidth) (m : Mem) (table : ℕ) (wr : Bool) (v : ℕ) : Outcome :=
  let e := entry m table (index v 12)
  if !present e then .notPresent
  else if highReserved w e then .reserved
  else .mapped (base e 12 + v % 2 ^ 12) (wr && writable e) .kib4

/-- The page directory: a page of 2 MiB or a table. -/
def walkPD (w : PhysWidth) (m : Mem) (table : ℕ) (wr : Bool) (v : ℕ) : Outcome :=
  let e := entry m table (index v 21)
  if !present e then .notPresent
  else if highReserved w e then .reserved
  else if pageSize e then
    if lowReserved e 21 then .reserved
    else .mapped (base e 21 + v % 2 ^ 21) (wr && writable e) .mib2
  else walkPT w m (base e 12) (wr && writable e) v

/-- The page directory pointer table: a page of 1 GiB or a directory. -/
def walkPDPT (w : PhysWidth) (m : Mem) (table : ℕ) (wr : Bool) (v : ℕ) : Outcome :=
  let e := entry m table (index v 30)
  if !present e then .notPresent
  else if highReserved w e then .reserved
  else if pageSize e then
    if lowReserved e 30 then .reserved
    else .mapped (base e 30 + v % 2 ^ 30) (wr && writable e) .gib1
  else walkPD w m (base e 12) (wr && writable e) v

/-- **The walk** from the root table: its entries have no page size. -/
def pageWalk (w : PhysWidth) (m : Mem) (cr3 v : ℕ) : Outcome :=
  let e := entry m (base cr3 12) (index v 39)
  if !present e then .notPresent
  else if highReserved w e || pageSize e then .reserved
  else walkPDPT w m (base e 12) (writable e) v

/-! ### Access through the walk -/

/-- The addresses of the entries that the walk uses, from the root on. -/
def walkPath (m : Mem) (cr3 v : ℕ) : List ℕ :=
  let a4 := base cr3 12 + 8 * index v 39
  let a3 := base (load64 m a4) 12 + 8 * index v 30
  let a2 := base (load64 m a3) 12 + 8 * index v 21
  let a1 := base (load64 m a2) 12 + 8 * index v 12
  if pageSize (load64 m a3) then [a4, a3] else if pageSize (load64 m a2) then [a4, a3, a2] else [a4, a3, a2, a1]

/-- The memory with flags set in the low byte of an entry. -/
def setFlags (m : Mem) (a : ℕ) (flags : UInt8) : Mem := Function.update m a (m a ||| flags)

/-- All entries are accessed; the last one is dirty after a store. -/
def mark (store : Bool) : List ℕ → Mem → Mem
  | [], m => m
  | [a], m => setFlags m a (if store then 0x60 else 0x20)
  | a :: b :: as, m => mark store (b :: as) (setFlags m a 0x20)

def pagedLoad (w : PhysWidth) (cr3 v : ℕ) (m : Mem) : Option (UInt8 × Mem) :=
  match pageWalk w m cr3 v with
  | .mapped p _ _ => some (mark false (walkPath m cr3 v) m p, mark false (walkPath m cr3 v) m)
  | _ => none

/-- A store in ring 0: a page that is not writable is protected under `wp` only. -/
def pagedStore (w : PhysWidth) (wp : Bool) (cr3 v : ℕ) (b : UInt8) (m : Mem) : Option Mem :=
  match pageWalk w m cr3 v with
  | .mapped p wr _ => if wr || !wp then some (Function.update (mark true (walkPath m cr3 v) m) p b) else none
  | _ => none

def paged (w : PhysWidth) (wp : Bool) (cr3 : ℕ) : Access := ⟨pagedLoad w cr3, pagedStore w wp cr3⟩

/-! ### Entries up to their marks -/

/-- The entry `e₀` with some of the bits accessed and dirty. -/
def Marked (e e₀ : ℕ) : Prop := ∃ f < 4, e = e₀ + 2 ^ 5 * f

section Marks

variable {m : Mem} {a e e₀ k : ℕ}

theorem marked_self (e₀ : ℕ) : Marked e₀ e₀ := ⟨0, by decide, rfl⟩

/-- What the walk reads in an entry does not depend on its marks. -/
theorem Marked.bits (h : Marked e e₀) (h₀ : e₀ % 2 ^ 7 < 2 ^ 5) :
    present e = present e₀ ∧ writable e = writable e₀ ∧
    pageSize e = pageSize e₀ ∧ lowReserved e 21 = lowReserved e₀ 21 := by
  obtain ⟨f, hf, rfl⟩ := h
  simp only [present, writable, pageSize, lowReserved, bit, decide_eq_decide]
  omega

theorem Marked.base (h : Marked e e₀) (h₀ : e₀ % 2 ^ 7 < 2 ^ 5) :
    PageWalk.base e 12 = PageWalk.base e₀ 12 ∧ PageWalk.base e 21 = PageWalk.base e₀ 21 := by
  obtain ⟨f, hf, rfl⟩ := h
  simp only [PageWalk.base]
  omega

/-- The low byte of an entry, and the rest. -/
theorem load64_update (m : Mem) (a : ℕ) (b : UInt8) :
    load64 (Function.update m a b) a + (m a).toNat = load64 m a + b.toNat := by
  simp only [load64, load32, Function.update_self]
  rw [Function.update_of_ne (by omega), Function.update_of_ne (by omega), Function.update_of_ne (by omega),
    Function.update_of_ne (by omega), Function.update_of_ne (by omega), Function.update_of_ne (by omega),
    Function.update_of_ne (by omega)]
  omega

/-- Setting marks in an entry. -/
theorem Marked.setFlags {flags : UInt8} (h : Marked (load64 m a) e₀) (h₀ : e₀ % 2 ^ 7 < 2 ^ 5)
    (hflags : flags = 0x20 ∨ flags = 0x60) : Marked (load64 (setFlags m a flags) a) e₀ := by
  -- of the low byte only the two bits change
  have hbyte : ∀ b : UInt8, ∃ f < 4,
      (b ||| flags).toNat + 2 ^ 5 * (b.toNat / 2 ^ 5 % 4) = b.toNat + 2 ^ 5 * f := by
    refine forall_byte ?_
    rcases hflags with rfl | rfl <;> decide +kernel
  obtain ⟨f, hf, he⟩ := h
  obtain ⟨g, hg, hb⟩ := hbyte (m a)
  have hset := load64_update m a (m a ||| flags)
  have hlow : load64 m a % 2 ^ 8 = (m a).toNat := by
    have := (m a).toNat_lt
    simp only [load64, load32]
    omega
  refine ⟨g, hg, ?_⟩
  rw [PageWalk.setFlags]
  omega

theorem load64_setFlags_apart {flags : UInt8} {b : ℕ} (h : a < b ∨ b + 8 ≤ a) :
    load64 (setFlags m a flags) b = load64 m b := by
  simp only [load64, load32, setFlags]
  rw [Function.update_of_ne (by omega), Function.update_of_ne (by omega), Function.update_of_ne (by omega),
    Function.update_of_ne (by omega), Function.update_of_ne (by omega), Function.update_of_ne (by omega),
    Function.update_of_ne (by omega), Function.update_of_ne (by omega)]

/-- Setting marks in one entry, seen at any entry. -/
theorem Marked.setFlags_at {flags : UInt8} {b : ℕ} (h : Marked (load64 m b) e₀) (h₀ : e₀ % 2 ^ 7 < 2 ^ 5)
    (hflags : flags = 0x20 ∨ flags = 0x60) (ha : a % 8 = 0) (hb : b % 8 = 0) :
    Marked (load64 (PageWalk.setFlags m a flags) b) e₀ := by
  by_cases hab : a = b
  · subst hab
    exact h.setFlags h₀ hflags
  · rw [load64_setFlags_apart (by omega)]
    exact h

/-- **A walk leaves entries marked** that were. -/
theorem Marked.mark {store : Bool} {as : List ℕ} {b : ℕ} (h : Marked (load64 m b) e₀) (h₀ : e₀ % 2 ^ 7 < 2 ^ 5)
    (has : ∀ a ∈ as, a % 8 = 0) (hb : b % 8 = 0) : Marked (load64 (PageWalk.mark store as m) b) e₀ := by
  induction as, m using PageWalk.mark.induct with
  | case1 m => exact h
  | case2 a m =>
    refine h.setFlags_at h₀ ?_ (has a List.mem_cons_self) hb
    cases store
    · exact Or.inl rfl
    · exact Or.inr rfl
  | case3 a b' as m ih =>
    exact ih (h.setFlags_at h₀ (Or.inl rfl) (has a List.mem_cons_self) hb) fun x hx =>
      has x (List.mem_cons_of_mem a hx)

theorem mark_apart {store : Bool} {as : List ℕ} {x : ℕ} (hx : x ∉ as) : mark store as m x = m x := by
  induction as, m using PageWalk.mark.induct with
  | case1 m => rfl
  | case2 a m => exact Function.update_of_ne (List.ne_of_not_mem_cons hx) _ _
  | case3 a b as m ih =>
    exact (ih (List.not_mem_of_not_mem_cons hx)).trans (Function.update_of_ne (List.ne_of_not_mem_cons hx) _ _)

end Marks

/-! ### Single levels -/

section Levels

variable {w : PhysWidth} {m : Mem} {table v e : ℕ} {wr : Bool}

/-- An entry that fits in the low word has no high bits set. -/
theorem highReserved_of_lt (h : e < 2 ^ 32) : highReserved w e = false := by
  have hw : 2 ^ 32 ≤ 2 ^ w.bits := Nat.pow_le_pow_right (by decide) w.ge
  have h1 : e % 2 ^ 52 / 2 ^ w.bits = 0 := Nat.div_eq_of_lt (by omega)
  have h2 : e / 2 ^ 63 = 0 := by omega
  rw [highReserved, h1, h2]
  decide

theorem pageWalk_none {cr3 : ℕ} (he : present (entry m (base cr3 12) (index v 39)) = false) :
    pageWalk w m cr3 v = .notPresent := by
  simp [pageWalk, he]

theorem walkPDPT_none (he : present (entry m table (index v 30)) = false) :
    walkPDPT w m table wr v = .notPresent := by
  simp [walkPDPT, he]

/-- The root entry points to a table. -/
theorem pageWalk_table {cr3 : ℕ} (he : entry m (base cr3 12) (index v 39) = e) (hlt : e < 2 ^ 32)
    (hp : present e = true) (hs : pageSize e = false) :
    pageWalk w m cr3 v = walkPDPT w m (base e 12) (writable e) v := by
  simp [pageWalk, he, hp, hs, highReserved_of_lt hlt]

theorem walkPDPT_table (he : entry m table (index v 30) = e) (hlt : e < 2 ^ 32) (hp : present e = true)
    (hs : pageSize e = false) :
    walkPDPT w m table wr v = walkPD w m (base e 12) (wr && writable e) v := by
  simp [walkPDPT, he, hp, hs, highReserved_of_lt hlt]

theorem walkPD_page (he : entry m table (index v 21) = e) (hlt : e < 2 ^ 32) (hp : present e = true)
    (hs : pageSize e = true) (hl : lowReserved e 21 = false) :
    walkPD w m table wr v = .mapped (base e 21 + v % 2 ^ 21) (wr && writable e) .mib2 := by
  simp [walkPD, he, hp, hs, hl, highReserved_of_lt hlt]

end Levels

end PageWalk
