import FoxOS.Lib.PageWalk

/-!
# FoxOS.Boot.Paging — the page tables of the boot loader

The part of `stage2.asm` that builds the tables, in 32-bit protected mode over a flat memory: clear four pages
from `0x9000` on, link the first entries of the two upper tables, fill the page directory in the loop `.map_pd`,
load `cr3`. The code itself is not in the memory of the model: the tables are taken not to overlap it.

The two loops are fills of the memory (`repStosd_mem`, `mapPd_mem`), so the entries of all three tables are
known (`pml4_entry`, `pdpt_entry`, `pd_entry`), and `boot_tables_identity` walks them.
-/

namespace FoxOS

open ByteMem PageWalk

/-! ### The code -/

/-- The registers the code uses, the direction flag, and the memory. -/
structure Machine where
  eax : UInt32
  ecx : UInt32
  edi : UInt32
  cr3 : UInt32
  df : Bool
  mem : Mem

theorem toNat_pred {x : UInt32} (h : x ≠ 0) : (x - 1).toNat = x.toNat - 1 := by
  have hpos : x.toNat ≠ 0 := fun h0 => h (UInt32.toNat_inj.mp (by simpa using h0))
  apply UInt32.toNat_sub_of_le
  rw [UInt32.le_iff_toNat_le]
  change 1 ≤ x.toNat
  omega

theorem pred_lt {x : UInt32} (h : x ≠ 0) : (x - 1).toNat < x.toNat := by
  have hpos : x.toNat ≠ 0 := fun h0 => h (UInt32.toNat_inj.mp (by simpa using h0))
  rw [toNat_pred h]
  omega

/-- `stosd`: store `eax` at `edi` and step by the direction flag. -/
def stosd (s : Machine) : Machine :=
  { s with
    mem := store32 s.mem s.edi.toNat s.eax
    edi := if s.df then s.edi - 4 else s.edi + 4 }

/-- `rep stosd`. -/
def repStosd (s : Machine) : Machine :=
  if s.ecx = 0 then s else repStosd { stosd s with ecx := s.ecx - 1 }
termination_by s.ecx.toNat
decreasing_by exact pred_lt ‹_›

/-- The body of `.map_pd`: an entry, the next 2 MiB, the next entry. -/
def mapEntry (s : Machine) : Machine :=
  { s with
    mem := store32 s.mem s.edi.toNat s.eax
    eax := s.eax + 0x200000
    edi := s.edi + 8 }

/-- The loop `.map_pd`: `loop` counts down and ends at zero. -/
def mapPd (s : Machine) : Machine :=
  if s.ecx - 1 = 0 then { mapEntry s with ecx := 0 } else mapPd { mapEntry s with ecx := s.ecx - 1 }
termination_by (s.ecx - 1).toNat
decreasing_by exact pred_lt ‹_›

/-- `mov dword [a], w`. -/
def movDword (a : ℕ) (w : UInt32) (s : Machine) : Machine := { s with mem := store32 s.mem a w }

/-- From the comment on the page tables up to the load of `cr3`. -/
def buildTables (s : Machine) : Machine :=
  let s := repStosd { s with edi := 0x9000, eax := 0, ecx := 4096 }
  let s := movDword 0x9000 (0xA000 ||| 3) s
  let s := movDword 0xA000 (0xB000 ||| 3) s
  let s := mapPd { s with edi := 0xB000, eax := 0x0 ||| 0x83, ecx := 512 }
  { s with eax := 0x9000, cr3 := 0x9000 }

/-! ### The loops -/

theorem toNat_add_small {x k : UInt32} (h : x.toNat + k.toNat < 2 ^ 32) :
    (x + k).toNat = x.toNat + k.toNat := by
  rw [UInt32.toNat_add]
  exact Nat.mod_eq_of_lt h

theorem ne_zero_of_toNat {x : UInt32} {n : ℕ} (h : x.toNat = n + 1) : x ≠ 0 := by
  rintro rfl
  exact absurd h (by simp)

/-- **`rep stosd`** with the direction flag clear fills the memory upwards. -/
theorem repStosd_mem (n : ℕ) (s : Machine) (hdf : s.df = false) (hn : s.ecx.toNat = n)
    (hedi : s.edi.toNat + 4 * n < 2 ^ 32) :
    (repStosd s).mem = fill s.mem s.edi.toNat 4 (fun _ => s.eax) n := by
  induction n generalizing s with
  | zero =>
    rw [repStosd, if_pos (UInt32.toNat_inj.mp hn)]
    rfl
  | succ n ih =>
    have hne := ne_zero_of_toNat hn
    have hcount : (s.ecx - 1).toNat = n := by
      rw [toNat_pred hne]
      omega
    have hstep : (stosd s).edi.toNat = s.edi.toNat + 4 := by
      rw [stosd, hdf]
      exact toNat_add_small (by change s.edi.toNat + 4 < 2 ^ 32; omega)
    have ih' := ih { stosd s with ecx := s.ecx - 1 } hdf hcount (by change (stosd s).edi.toNat + _ < _; omega)
    rw [repStosd, if_neg hne, ih']
    change fill (store32 s.mem s.edi.toNat s.eax) (stosd s).edi.toNat 4 (fun _ => s.eax) n = _
    rw [hstep]
    exact fill_succ_front s.mem s.edi.toNat 4 (fun _ => s.eax) n

theorem next_word (x : UInt32) (i : ℕ) :
    x + 0x200000 + UInt32.ofNat i * 0x200000 = x + UInt32.ofNat (i + 1) * 0x200000 := by
  rw [UInt32.ofNat_add, UInt32.add_mul, UInt32.add_assoc, UInt32.add_comm (UInt32.ofNat i * 0x200000)]
  rfl

/-- **`.map_pd`** stores increasing words, eight bytes apart. -/
theorem mapPd_mem (n : ℕ) (s : Machine) (hn : s.ecx.toNat = n + 1) (hedi : s.edi.toNat + 8 * (n + 1) < 2 ^ 32) :
    (mapPd s).mem = fill s.mem s.edi.toNat 8 (fun i => s.eax + UInt32.ofNat i * 0x200000) (n + 1) := by
  have hword : s.eax + UInt32.ofNat 0 * 0x200000 = s.eax := by simp
  induction n generalizing s with
  | zero =>
    have hlast : s.ecx - 1 = 0 := by
      apply UInt32.toNat_inj.mp
      rw [toNat_pred (ne_zero_of_toNat hn), hn]
      rfl
    rw [mapPd, if_pos hlast, fill, hword]
    rfl
  | succ n ih =>
    have hcount : (s.ecx - 1).toNat = n + 1 := by
      rw [toNat_pred (ne_zero_of_toNat hn)]
      omega
    have hstep : (s.edi + 8).toNat = s.edi.toNat + 8 :=
      toNat_add_small (by change s.edi.toNat + 8 < 2 ^ 32; omega)
    have ih' := ih { mapEntry s with ecx := s.ecx - 1 } hcount
      (by change (s.edi + 8).toNat + _ < _; omega) (by simp)
    rw [mapPd, if_neg (ne_zero_of_toNat hcount), ih',
      ← fill_succ_front s.mem s.edi.toNat 8 (fun i => s.eax + UInt32.ofNat i * 0x200000) (n + 1), hword]
    simp only [mapEntry, hstep, next_word]

/-! ### The tables -/

/-- The words of the directory do not carry out of 32 bits. -/
theorem directory_word {i : ℕ} (hi : i < 512) :
    (0x83 + UInt32.ofNat i * 0x200000 : UInt32).toNat = 0x83 + 0x200000 * i := by
  rw [UInt32.toNat_add, UInt32.toNat_mul, UInt32.toNat_ofNat']
  change (131 + i % 2 ^ 32 * 2097152 % 2 ^ 32) % 2 ^ 32 = _
  omega

section Tables

variable {s : Machine} (hdf : s.df = false)

include hdf

/-- The memory afterwards: the four cleared pages, the two links, the directory. -/
theorem buildTables_mem : (buildTables s).mem =
    fill (store32 (store32 (fill s.mem 0x9000 4 (fun _ => 0) 4096) 0x9000 0xA003) 0xA000 0xB003) 0xB000 8
      (fun i => 0x83 + UInt32.ofNat i * 0x200000) 512 := by
  have hclear := repStosd_mem 4096 { s with edi := 0x9000, eax := 0, ecx := 4096 } hdf rfl
    (show (0x9000 : UInt32).toNat + 4 * 4096 < 2 ^ 32 by decide)
  unfold buildTables
  simp only
  rw [mapPd_mem 511 _ rfl (show (0xB000 : UInt32).toNat + 8 * 512 < 2 ^ 32 by decide)]
  simp only [movDword]
  rw [hclear]
  rfl

/-- Every word of the four pages is zero, but for the links and the low words of the directory. -/
theorem load32_zero {j : ℕ} (hj : j < 4096) (h0 : j ≠ 0) (h1 : j ≠ 1024)
    (h2 : 2048 ≤ j → j < 3072 → j % 2 = 1) : load32 (buildTables s).mem (0x9000 + 4 * j) = 0 := by
  rw [buildTables_mem hdf, load32_fill_apart (fun i hi => by omega), load32_store32_apart (by omega),
    load32_store32_apart (by omega), load32_fill (by decide) hj]
  rfl

/-- The high half of every entry in the four pages is zero. -/
theorem load64_low {q : ℕ} (hq : q < 2048) :
    load64 (buildTables s).mem (0x9000 + 8 * q) = load32 (buildTables s).mem (0x9000 + 8 * q) := by
  have hhigh : load32 (buildTables s).mem (0x9000 + 8 * q + 4) = 0 := by
    rw [show 0x9000 + 8 * q + 4 = 0x9000 + 4 * (2 * q + 1) by omega]
    apply load32_zero hdf <;> omega
  rw [load64, hhigh, Nat.mul_zero, Nat.add_zero]

/-- An entry that no store behind the clearing touched. -/
theorem load64_zero {q : ℕ} (hq : q < 1024) (h0 : q ≠ 0) (h1 : q ≠ 512) :
    load64 (buildTables s).mem (0x9000 + 8 * q) = 0 := by
  rw [load64_low hdf (by omega), show 0x9000 + 8 * q = 0x9000 + 4 * (2 * q) by omega]
  apply load32_zero hdf <;> omega

theorem pml4_entry {i : ℕ} (hi : i < 512) :
    entry (buildTables s).mem 0x9000 i = if i = 0 then 0xA003 else 0 := by
  rw [entry]
  by_cases h0 : i = 0
  · rw [if_pos h0, h0, load64_low hdf (by decide), buildTables_mem hdf,
      load32_fill_apart (fun i hi => by omega), load32_store32_apart (by omega), load32_store32_self]
    rfl
  · rw [if_neg h0]
    apply load64_zero hdf <;> omega

theorem pdpt_entry {i : ℕ} (hi : i < 512) :
    entry (buildTables s).mem 0xA000 i = if i = 0 then 0xB003 else 0 := by
  rw [entry, show 0xA000 + 8 * i = 0x9000 + 8 * (512 + i) by omega]
  by_cases h0 : i = 0
  · rw [if_pos h0, h0, load64_low hdf (by decide), buildTables_mem hdf,
      load32_fill_apart (fun i hi => by omega), load32_store32_self]
    rfl
  · rw [if_neg h0]
    apply load64_zero hdf <;> omega

theorem pd_entry {i : ℕ} (hi : i < 512) : entry (buildTables s).mem 0xB000 i = 0x83 + 0x200000 * i := by
  rw [entry, show 0xB000 + 8 * i = 0x9000 + 8 * (1024 + i) by omega, load64_low hdf (by omega),
    show 0x9000 + 8 * (1024 + i) = 0xB000 + 8 * i by omega, buildTables_mem hdf, load32_fill (by decide) hi,
    directory_word hi]

end Tables

/-! ### The walk -/

/-- What the walk reads in an entry of the directory. -/
theorem directory_bits (i : ℕ) : present (0x83 + 0x200000 * i) = true ∧ writable (0x83 + 0x200000 * i) = true ∧
    pageSize (0x83 + 0x200000 * i) = true ∧ lowReserved (0x83 + 0x200000 * i) 21 = false := by
  simp only [present, writable, pageSize, lowReserved, bit, decide_eq_true_eq, decide_eq_false_iff_not]
  omega

theorem directory_base {i : ℕ} (hi : i < 512) : base (0x83 + 0x200000 * i) 21 = 2 ^ 21 * i := by
  rw [base]
  omega

/-- **The page tables are the identity on the first GiB and nothing else**, over any contents of the memory,
with the direction flag clear: an address below 1 GiB is mapped to itself, writable, by a page of 2 MiB; any
other 48-bit address is not present. -/
theorem boot_tables_identity (w : PhysWidth) (s : Machine) (hdf : s.df = false) :
    (∀ v < 2 ^ 30, pageWalk w (buildTables s).mem (buildTables s).cr3.toNat v = .mapped v true .mib2) ∧
    (∀ v, 2 ^ 30 ≤ v → v < 2 ^ 48 →
      pageWalk w (buildTables s).mem (buildTables s).cr3.toNat v = .notPresent) := by
  have hcr3 : base (buildTables s).cr3.toNat 12 = 0x9000 := by
    change base (0x9000 : UInt32).toNat 12 = 0x9000
    decide
  have hpml4 : ∀ v, entry (buildTables s).mem (base (buildTables s).cr3.toNat 12) (index v 39) =
      if index v 39 = 0 then 0xA003 else 0 := by
    intro v
    rw [hcr3]
    exact pml4_entry hdf (Nat.mod_lt _ (by decide))
  have hpdpt : ∀ v, entry (buildTables s).mem (base 0xA003 12) (index v 30) =
      if index v 30 = 0 then 0xB003 else 0 := fun v => pdpt_entry hdf (Nat.mod_lt _ (by decide))
  constructor
  · intro v hv
    have h39 : index v 39 = 0 := by
      rw [index]
      omega
    have h30 : index v 30 = 0 := by
      rw [index]
      omega
    have h21 : index v 21 = v / 2 ^ 21 := by
      rw [index]
      omega
    have hpd : entry (buildTables s).mem (base 0xB003 12) (index v 21) = 0x83 + 0x200000 * (v / 2 ^ 21) := by
      rw [h21]
      exact pd_entry hdf (by omega)
    obtain ⟨hp, hw, hs, hl⟩ := directory_bits (v / 2 ^ 21)
    rw [pageWalk_table ((hpml4 v).trans (if_pos h39)) (by decide) (by decide) (by decide),
      walkPDPT_table ((hpdpt v).trans (if_pos h30)) (by decide) (by decide) (by decide),
      walkPD_page hpd (by omega) hp hs hl, directory_base (by omega), hw, Nat.div_add_mod]
    rfl
  · intro v hlo hhi
    by_cases h39 : index v 39 = 0
    · -- the address is in the first 512 GiB, but not in its first GiB
      have h30 : index v 30 ≠ 0 := by
        rw [index] at h39 ⊢
        omega
      rw [pageWalk_table ((hpml4 v).trans (if_pos h39)) (by decide) (by decide) (by decide)]
      apply walkPDPT_none
      rw [hpdpt v, if_neg h30]
      decide
    · apply pageWalk_none
      rw [hpml4 v, if_neg h39]
      decide

theorem boot_tables_sample :
    pageWalk ⟨40, by decide, by decide⟩ (buildTables ⟨0, 0, 0, 0, false, fun _ => 0xFF⟩).mem
      (buildTables ⟨0, 0, 0, 0, false, fun _ => 0xFF⟩).cr3.toNat 0x12345678 = .mapped 0x12345678 true .mib2 :=
  (boot_tables_identity ⟨40, by decide, by decide⟩ ⟨0, 0, 0, 0, false, fun _ => 0xFF⟩ rfl).1 _ (by decide)

end FoxOS
