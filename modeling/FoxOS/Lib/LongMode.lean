import Mathlib.Data.BitVec
import FoxOS.Lib.Access

/-!
# FoxOS.Lib.LongMode — the way into 64-bit mode

The bits of `cr0`, `cr4` and `EFER` that select the operating mode of the processor, the checks that it makes
when one of the registers is written, and the descriptors that a far jump and a segment load read, in ring 0.
What the processor refuses (general protection) is `none`.  A descriptor is read from the memory, and its
accessed bit is set there (`segment_spec`).  `enter_long`: protection first, then PAE, LME and paging, in this
order, are never refused.
-/

namespace LongMode

open ByteMem

/-! ### Control registers -/

structure Control where
  cr0 : BitVec 32
  cr4 : BitVec 32
  efer : BitVec 64

namespace Control

variable (c : Control)

/-- Protection enable. -/
def pe : Bool := c.cr0.getLsbD 0

/-- Write protection of pages in ring 0. -/
def wp : Bool := c.cr0.getLsbD 16

/-- Paging. -/
def pg : Bool := c.cr0.getLsbD 31

/-- Physical address extension. -/
def pae : Bool := c.cr4.getLsbD 5

/-- Five levels of page tables. -/
def la57 : Bool := c.cr4.getLsbD 12

/-- Long mode enable. -/
def lme : Bool := c.efer.getLsbD 8

/-- Long mode active. -/
def lma : Bool := c.efer.getLsbD 10

end Control

/-- The word with bit `i` set to `b`. -/
def setBit {n : ℕ} (x : BitVec n) (i : ℕ) (b : Bool) : BitVec n :=
  if b then x ||| BitVec.twoPow n i else x &&& ~~~ BitVec.twoPow n i

/-- `mov cr0`: paging needs protection, and turning it on under LME needs PAE.  LMA follows LME and paging. -/
def Control.writeCr0 (c : Control) (v : BitVec 32) : Option Control :=
  if v.getLsbD 31 = true ∧ v.getLsbD 0 = false then none
  else if v.getLsbD 31 = true ∧ c.pg = false ∧ c.lme = true ∧ c.pae = false then none
  else some { c with cr0 := v, efer := setBit c.efer 10 (c.lme && v.getLsbD 31) }

/-- `mov cr4`: PAE stays on in long mode. -/
def Control.writeCr4 (c : Control) (v : BitVec 32) : Option Control :=
  if c.lma = true ∧ v.getLsbD 5 = false then none else some { c with cr4 := v }

/-- `wrmsr` to EFER: LME cannot be changed under paging, LMA cannot be written. -/
def Control.writeEfer (c : Control) (v : BitVec 64) : Option Control :=
  if c.pg = true ∧ v.getLsbD 8 ≠ c.lme then none else some { c with efer := setBit v 10 c.lma }

/-! ### Segments -/

/-- A segment descriptor, byte by byte. -/
structure Descriptor where
  limit0 : UInt8
  limit1 : UInt8
  base0 : UInt8
  base1 : UInt8
  base2 : UInt8
  access : UInt8
  flags : UInt8
  base3 : UInt8
  deriving DecidableEq

def Descriptor.ofBytes : List UInt8 → Option Descriptor
  | [b0, b1, b2, b3, b4, b5, b6, b7] => some ⟨b0, b1, b2, b3, b4, b5, b6, b7⟩
  | _ => none

namespace Descriptor

variable (d : Descriptor)

/-- Present, for ring 0, and not a system segment. -/
def usable : Bool := d.access &&& 0xF0 == 0x90

def executable : Bool := d.access &&& 0x08 != 0

/-- For data: writable. -/
def writable : Bool := d.access &&& 0x02 != 0

def accessed : Bool := d.access ||| 1 == d.access

/-- 64-bit code. -/
def long : Bool := d.flags &&& 0x20 != 0

/-- 32-bit default size. -/
def big : Bool := d.flags &&& 0x40 != 0

def baseAddr : ℕ := d.base0.toNat + 2 ^ 8 * d.base1.toNat + 2 ^ 16 * d.base2.toNat + 2 ^ 24 * d.base3.toNat

/-- The last offset inside the segment. -/
def lastOffset : ℕ :=
  let units := d.limit0.toNat + 2 ^ 8 * d.limit1.toNat + 2 ^ 16 * (d.flags.toNat % 16)
  if d.flags &&& 0x80 != 0 then 2 ^ 12 * units + (2 ^ 12 - 1) else units

/-- Offsets are linear addresses, and all of them are inside. -/
def isFlat : Bool := d.baseAddr == 0 && d.lastOffset == 2 ^ 32 - 1

end Descriptor

/-- The size of the code that runs. -/
inductive Mode
  | bits16 | bits32 | bits64
  deriving DecidableEq

/-- The code size behind a far jump through a descriptor: long and big at once is refused in long mode. -/
def Descriptor.codeMode (d : Descriptor) (lma : Bool) : Option Mode :=
  if !(d.usable && d.executable) then none
  else if lma && d.long then if d.big then none else some .bits64
  else some (if d.big then .bits32 else .bits16)

/-- Where the descriptor table is, and its last offset. -/
structure Gdtr where
  limit : ℕ
  base : ℕ

/-- The descriptor for a selector of ring 0 in the table, if it passes the check; its accessed bit is set. -/
def segment (ac : Access) (g : Gdtr) (ok : Descriptor → Bool) (selector : ℕ) (m : Mem) :
    Option (Descriptor × Mem) :=
  if selector = 0 ∨ selector % 8 ≠ 0 ∨ g.limit < selector + 7 then none
  else (ac.loads (g.base + selector) 8 m).bind fun p => (Descriptor.ofBytes p.1).bind fun d =>
    if !ok d then none
    else if d.accessed then some (d, p.2)
    else (ac.store (g.base + selector + 5) (d.access ||| 1) p.2).bind fun m => some (d, m)

/-- `jmp selector:offset` under protection. -/
def farJump (ac : Access) (g : Gdtr) (lma : Bool) (selector : ℕ) (m : Mem) : Option (Descriptor × Mem) :=
  segment ac g (fun d => (d.codeMode lma).isSome) selector m

/-- `mov ss, ax`, and with the same selector the other segment registers: writable data. -/
def loadData (ac : Access) (g : Gdtr) (selector : ℕ) (m : Mem) : Option (Descriptor × Mem) :=
  segment ac g (fun d => d.usable && !d.executable && d.writable) selector m

/-- The descriptor at an address. -/
def descriptorAt (m : Mem) (a : ℕ) : Descriptor :=
  ⟨m a, m (a + 1), m (a + 2), m (a + 3), m (a + 4), m (a + 5), m (a + 6), m (a + 7)⟩

/-- The memory with the accessed bit set in the byte at `a`. -/
def setAccessed (a : ℕ) (m : Mem) : Mem := Function.update m a (m a ||| 1)

theorem setAccessed_of_ne {a x : ℕ} (h : x ≠ a) (m : Mem) : setAccessed a m x = m x :=
    Function.update_of_ne h _ _

theorem setAccessed_self (a : ℕ) (m : Mem) : setAccessed a m a = m a ||| 1 := Function.update_self _ _ _

/-- The bit is set once. -/
theorem or_one_or_one (b : UInt8) : b ||| 1 ||| 1 = b ||| 1 := by
  rw [UInt8.or_assoc]
  rfl

theorem setAccessed_congr {m m' : Mem} {a x : ℕ} (ha : m a = m' a) (hx : m x = m' x) :
    setAccessed a m x = setAccessed a m' x := by
  rw [setAccessed, setAccessed, Function.update_apply, Function.update_apply, ha, hx]

/-- **A segment** whose descriptor passes the check. -/
theorem segment_spec {ac : Access} {I : Mem → Prop} {D : ℕ → Prop} {m : Mem} (h : ac.Sound I D) (g : Gdtr)
    (ok : Descriptor → Bool) (selector : ℕ) (hm : I m)
    (hsel : ¬ (selector = 0 ∨ selector % 8 ≠ 0 ∨ g.limit < selector + 7))
    (hD : ∀ i < 8, D (g.base + selector + i)) (hok : ok (descriptorAt m (g.base + selector)) = true) :
    ∃ m', segment ac g ok selector m = some (descriptorAt m (g.base + selector), m') ∧ I m' ∧
      ∀ x, D x → m' x = setAccessed (g.base + selector + 5) m x := by
  obtain ⟨m₁, hloads, hm₁, hsame⟩ := h.loads hm hD
  have hread : Descriptor.ofBytes ((List.range' (g.base + selector) 8).map m) =
      some (descriptorAt m (g.base + selector)) := rfl
  rw [segment, if_neg hsel, hloads, Option.bind_some, hread, Option.bind_some, hok, Bool.not_true,
    if_neg Bool.false_ne_true]
  by_cases hacc : (descriptorAt m (g.base + selector)).accessed = true
  · -- the bit is set already
    refine ⟨m₁, by rw [if_pos hacc], hm₁, fun x hx => (hsame x hx).trans ?_⟩
    have hbit : m (g.base + selector + 5) ||| 1 = m (g.base + selector + 5) := beq_iff_eq.mp hacc
    rw [setAccessed, hbit, Function.update_eq_self]
  · obtain ⟨m₂, hstore, hm₂, hput⟩ := h.store (m (g.base + selector + 5) ||| 1) hm₁ (hD 5 (by decide))
    refine ⟨m₂, ?_, hm₂, fun x hx => ?_⟩
    · rw [if_neg hacc, show (descriptorAt m (g.base + selector)).access = m (g.base + selector + 5)
        from rfl, hstore, Option.bind_some]
    · rw [hput x hx, setAccessed, Function.update_apply, Function.update_apply, hsame x hx]

/-! ### The switch -/

section Switch

variable {n : ℕ} {c : Control}

@[simp] theorem getLsbD_setBit_self {x : BitVec n} {i : ℕ} (hi : i < n) (b : Bool) :
    (setBit x i b).getLsbD i = b := by
  cases b <;> simp [setBit, hi]

theorem getLsbD_setBit_of_ne {x : BitVec n} {i j : ℕ} (hij : j ≠ i) (b : Bool) :
    (setBit x i b).getLsbD j = x.getLsbD j := by
  by_cases hj : j < n
  · cases b <;> simp [setBit, hij, hj]
  · simp [BitVec.getLsbD_of_ge _ _ (Nat.le_of_not_lt hj)]

/-- **Protection** is turned on from real mode. -/
theorem writeCr0_protect (hpg : c.pg = false) :
    ∃ c', c.writeCr0 (c.cr0 ||| 1) = some c' ∧ c'.pe = true ∧ c'.pg = false ∧
      c'.lma = false ∧ c'.cr4 = c.cr4 := by
  have hp : (c.cr0 ||| 1).getLsbD 31 = false := by
    rw [BitVec.getLsbD_or, show c.cr0.getLsbD 31 = false from hpg]
    decide
  refine ⟨{ c with cr0 := c.cr0 ||| 1, efer := setBit c.efer 10 (c.lme && (c.cr0 ||| 1).getLsbD 31) }, ?_, ?_,
    hp, ?_, rfl⟩
  · rw [Control.writeCr0, if_neg (by rw [hp]; simp), if_neg (by rw [hp]; simp)]
  · show (c.cr0 ||| 1).getLsbD 0 = true
    rw [BitVec.getLsbD_or]
    simp
  · show (setBit c.efer 10 _).getLsbD 10 = false
    rw [getLsbD_setBit_self (by decide), hp, Bool.and_false]

/-- **Long mode** is entered in the order PAE, LME, paging; `v` is any word for EFER with LME set. -/
theorem enter_long {v : Control → BitVec 64} (hv : ∀ c, (v c).getLsbD 8 = true) (hpe : c.pe = true)
    (hpg : c.pg = false) (hlma : c.lma = false) :
    ∃ c', ((c.writeCr4 (c.cr4 ||| BitVec.twoPow 32 5)).bind fun c => (c.writeEfer (v c)).bind fun c =>
      c.writeCr0 (c.cr0 ||| BitVec.twoPow 32 31)) = some c' ∧ c'.pg = true ∧
        c'.lma = true ∧ c'.la57 = c.la57 := by
  have hpae : (c.cr4 ||| BitVec.twoPow 32 5).getLsbD 5 = true := by
    rw [BitVec.getLsbD_or]
    simp
  have hpg' : (c.cr0 ||| BitVec.twoPow 32 31).getLsbD 31 = true := by
    rw [BitVec.getLsbD_or]
    simp
  have hpe' : (c.cr0 ||| BitVec.twoPow 32 31).getLsbD 0 = true := by
    rw [BitVec.getLsbD_or, show c.cr0.getLsbD 0 = true from hpe, Bool.true_or]
  let c₁ : Control := { c with cr4 := c.cr4 ||| BitVec.twoPow 32 5 }
  let c₂ : Control := { c₁ with efer := setBit (v c₁) 10 c.lma }
  let c₃ : Control := { c₂ with cr0 := c.cr0 ||| BitVec.twoPow 32 31, efer := setBit c₂.efer 10 true }
  have h1 : c.writeCr4 (c.cr4 ||| BitVec.twoPow 32 5) = some c₁ := by
    rw [Control.writeCr4, if_neg (by rw [hlma]; simp)]
  have h2 : c₁.writeEfer (v c₁) = some c₂ := by
    rw [Control.writeEfer, if_neg (by rw [show c₁.pg = false from hpg]; simp)]
    rfl
  have hlme : c₂.lme = true := by
    show (setBit (v c₁) 10 c.lma).getLsbD 8 = true
    rw [getLsbD_setBit_of_ne (by decide), hv]
  have h3 : c₂.writeCr0 (c₂.cr0 ||| BitVec.twoPow 32 31) = some c₃ := by
    have hcr0 : c₂.cr0 = c.cr0 := rfl
    rw [Control.writeCr0, hcr0, hpg', if_neg (by rw [hpe']; simp),
      if_neg (by rw [show c₂.pae = true from hpae]; simp), hlme]
    rfl
  have hlma' : c₃.lma = true := by
    show (setBit c₂.efer 10 true).getLsbD 10 = true
    exact getLsbD_setBit_self (by decide) true
  have hla57 : c₃.la57 = c.la57 := by
    show (c.cr4 ||| BitVec.twoPow 32 5).getLsbD 12 = c.cr4.getLsbD 12
    rw [BitVec.getLsbD_or]
    simp
  exact ⟨c₃, by rw [h1, Option.bind_some, h2, Option.bind_some, h3], hpg', hlma', hla57⟩

end Switch

end LongMode
