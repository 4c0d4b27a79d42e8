import FoxOS.Boot.RealMode

/-!
# FoxOS.Boot.Handoff — the kernel that the second stage starts

`kernel_handed_over`: with its data in the memory, its registers as it needs them and a BIOS that keeps its
promises (`AtStart`, `Bios.Ok`), the second stage never faults.  If the disk read succeeds, it jumps to a kernel
of which the first 16 KiB, and only they, were read from the disk.

The 32-bit part works on a flat memory (`Prepared`), the 64-bit part through the page tables, as long as they
stand (`Tables`, `tables_sound`); `switch_spec` is both of them behind the switches of the mode.
-/

namespace FoxOS

open ByteMem PageWalk LongMode

/-! ### The tables in use -/

/-- The tables in the memory, with any marks on the entries in use. -/
structure Tables (m : Mem) : Prop where
  pml4 : Marked (entry m 0x9000 0) 0xA003
  pdpt : Marked (entry m 0xA000 0) 0xB003
  pd : ∀ i < 512, Marked (entry m 0xB000 i) (0x83 + 0x200000 * i)

theorem tables_buildTables {s : Machine} (hdf : s.df = false) : Tables (buildTables s).mem := by
  refine ⟨?_, ?_, fun i hi => ?_⟩
  · rw [pml4_entry hdf (by decide)]
    exact marked_self _
  · rw [pdpt_entry hdf (by decide)]
    exact marked_self _
  · rw [pd_entry hdf hi]
    exact marked_self _

theorem entry_congr {m m' : Mem} {table i : ℕ} (h : ∀ x, table ≤ x → x < table + 4096 → m x = m' x)
    (hi : i < 512) : entry m table i = entry m' table i := by
  have hlow : load32 m (table + 8 * i) = load32 m' (table + 8 * i) :=
    load32_congr fun j hj => h _ (by omega) (by omega)
  have hhigh : load32 m (table + 8 * i + 4) = load32 m' (table + 8 * i + 4) :=
    load32_congr fun j hj => h _ (by omega) (by omega)
  rw [entry, entry, load64, load64, hlow, hhigh]

section Walk

variable {m m' : Mem} {v : ℕ}

/-- The tables lie in the pages from `0x9000` to `0xC000`. -/
theorem Tables.congr (h : Tables m) (hm : ∀ x, 0x9000 ≤ x → x < 0xC000 → m x = m' x) : Tables m' := by
  refine ⟨?_, ?_, fun i hi => ?_⟩
  · rw [← entry_congr (fun x h1 h2 => hm x (by omega) (by omega)) (by decide)]
    exact h.pml4
  · rw [← entry_congr (fun x h1 h2 => hm x (by omega) (by omega)) (by decide)]
    exact h.pdpt
  · rw [← entry_congr (fun x h1 h2 => hm x (by omega) (by omega)) hi]
    exact h.pd i hi

theorem index_low (hv : v < 2 ^ 30) : index v 39 = 0 ∧ index v 30 = 0 ∧ index v 21 = v / 2 ^ 21 := by
  simp only [index]
  omega

/-- **The walk** in any memory with these tables. -/
theorem Tables.walk (h : Tables m) (w : PhysWidth) (hv : v < 2 ^ 30) :
    pageWalk w m 0x9000 v = .mapped v true .mib2 := by
  obtain ⟨h39, h30, h21⟩ := index_low hv
  have hi : v / 2 ^ 21 < 512 := by omega
  obtain ⟨hp4, hw4, hs4, -⟩ := h.pml4.bits (by decide)
  obtain ⟨hp3, hw3, hs3, -⟩ := h.pdpt.bits (by decide)
  obtain ⟨hp2, hw2, hs2, hl2⟩ := (h.pd _ hi).bits (by omega)
  obtain ⟨hp, hw, hs, hl⟩ := directory_bits (v / 2 ^ 21)
  have hlt : ∀ {e e₀ : ℕ}, Marked e e₀ → e₀ < 2 ^ 31 → e < 2 ^ 32 := by
    rintro e e₀ ⟨f, hf, rfl⟩ h₀
    omega
  have hpml4 : entry m (base 0x9000 12) (index v 39) = entry m 0x9000 0 := by
    rw [h39]
    rfl
  have hbase4 : base (entry m 0x9000 0) 12 = 0xA000 := (h.pml4.base (by decide)).1
  have hbase3 : base (entry m 0xA000 0) 12 = 0xB000 := (h.pdpt.base (by decide)).1
  rw [pageWalk_table hpml4 (hlt h.pml4 (by decide)) (hp4.trans (by decide)) (hs4.trans (by decide)),
    hbase4, hw4,
    walkPDPT_table (congrArg (entry m 0xA000) h30) (hlt h.pdpt (by decide)) (hp3.trans (by decide))
      (hs3.trans (by decide)),
    hbase3, hw3,
    walkPD_page (congrArg (entry m 0xB000) h21) (hlt (h.pd _ hi) (by omega)) (hp2.trans hp) (hs2.trans hs)
      (hl2.trans hl),
    ((h.pd _ hi).base (by omega)).2, directory_base hi, hw2, hw, Nat.div_add_mod]
  rfl

/-- The three entries that it uses. -/
theorem Tables.path (h : Tables m) (hv : v < 2 ^ 30) :
    walkPath m 0x9000 v = [0x9000, 0xA000, 0xB000 + 8 * (v / 2 ^ 21)] := by
  obtain ⟨h39, h30, h21⟩ := index_low hv
  have hi : v / 2 ^ 21 < 512 := by omega
  have hbase4 : base (load64 m 0x9000) 12 = 0xA000 := (h.pml4.base (by decide)).1
  have hbase3 : base (load64 m 0xA000) 12 = 0xB000 := (h.pdpt.base (by decide)).1
  have hsize3 : pageSize (load64 m 0xA000) = false := (h.pdpt.bits (by decide)).2.2.1.trans (by decide)
  have hsize2 : pageSize (load64 m (0xB000 + 8 * (v / 2 ^ 21))) = true :=
    ((h.pd _ hi).bits (by omega)).2.2.1.trans (directory_bits _).2.2.1
  have hroot : base 0x9000 12 + 8 * 0 = 0x9000 := by decide
  have hnext : 0xA000 + 8 * 0 = 0xA000 := rfl
  simp only [walkPath, h39, h30, h21, hroot, hbase4, hnext, hbase3, hsize3, hsize2]
  rfl

/-- The memory apart from the tables, as far as it is mapped. -/
def Beyond (a : ℕ) : Prop := a < 2 ^ 30 ∧ (a < 0x9000 ∨ 0xC000 ≤ a)

/-- The marks are in the tables. -/
theorem Tables.mark (h : Tables m) (store : Bool) (hv : v < 2 ^ 30) :
    Tables (mark store (walkPath m 0x9000 v) m) ∧
      ∀ x, x < 0x9000 ∨ 0xC000 ≤ x → PageWalk.mark store (walkPath m 0x9000 v) m x = m x := by
  rw [h.path hv]
  have has : ∀ a ∈ [0x9000, 0xA000, 0xB000 + 8 * (v / 2 ^ 21)], a % 8 = 0 := by
    simp only [List.mem_cons, List.not_mem_nil, or_false]
    omega
  refine ⟨⟨h.pml4.mark (by decide) has (by decide), h.pdpt.mark (by decide) has (by decide), fun i hi =>
    (h.pd i hi).mark (by omega) has (by omega)⟩, fun x hx => mark_apart ?_⟩
  simp only [List.mem_cons, List.not_mem_nil, or_false]
  omega

/-- **Access through the tables** is the plain one apart from them, and keeps them. -/
theorem tables_sound (w : PhysWidth) (wp : Bool) : (paged w wp 0x9000).Sound Tables Beyond := by
  refine ⟨fun {m a} hm ha => ?_, fun {m a} b hm ha => ?_⟩
  · obtain ⟨htab, hsame⟩ := hm.mark false ha.1
    refine ⟨_, ?_, htab, fun x hx => hsame x hx.2⟩
    show pagedLoad w 0x9000 a m = _
    rw [pagedLoad, hm.walk w ha.1]
    simp only [hsame a ha.2]
  · obtain ⟨htab, hsame⟩ := hm.mark true ha.1
    have hstore : (paged w wp 0x9000).store a b m =
        some (Function.update (PageWalk.mark true (walkPath m 0x9000 a) m) a b) := by
      show pagedStore w wp 0x9000 a b m = _
      rw [pagedStore, hm.walk w ha.1]
      rfl
    refine ⟨_, hstore, htab.congr fun x h1 h2 => ?_, fun x hx => ?_⟩
    · have hne : x ≠ a := by
        have := ha.2
        omega
      rw [Function.update_of_ne hne]
    · rw [Function.update_apply, Function.update_apply, hsame x hx.2]

end Walk

/-! ### The descriptors in use -/

/-- The descriptor, accessed or not, stands at the address. -/
def Stands (m : Mem) (a : ℕ) (d : Descriptor) : Prop :=
  descriptorAt m a ∈ [d, { d with access := d.access ||| 1 }]

theorem descriptorAt_congr {m m' : Mem} {a : ℕ} (h : ∀ i < 8, m' (a + i) = m (a + i)) :
    descriptorAt m' a = descriptorAt m a := by
  have h0 : m' a = m a := h 0 (by decide)
  rw [descriptorAt, descriptorAt, h0, h 1 (by decide), h 2 (by decide), h 3 (by decide), h 4 (by decide),
    h 5 (by decide), h 6 (by decide), h 7 (by decide)]

theorem Stands.setAccessed {m m' : Mem} {a b : ℕ} {d : Descriptor} (h : Stands m a d)
    (hb : b < a ∨ b = a + 5 ∨ a + 8 ≤ b) (hm : ∀ i < 8, m' (a + i) = setAccessed b m (a + i)) :
      Stands m' a d := by
  rw [Stands, descriptorAt_congr hm]
  by_cases hself : b = a + 5
  · -- the bit stays set
    have hset : descriptorAt (LongMode.setAccessed b m) a =
        { descriptorAt m a with access := (descriptorAt m a).access ||| 1 } := by
      subst hself
      simp only [descriptorAt, setAccessed_self]
      rw [setAccessed_of_ne (by omega), setAccessed_of_ne (by omega), setAccessed_of_ne (by omega),
        setAccessed_of_ne (by omega), setAccessed_of_ne (by omega), setAccessed_of_ne (by omega),
        setAccessed_of_ne (by omega)]
    rw [Stands, List.mem_pair] at h
    rw [hset, List.mem_pair]
    rcases h with h | h
    · exact Or.inr (by rw [h])
    · exact Or.inr (by rw [h, or_one_or_one])
  · rw [descriptorAt_congr fun i hi => setAccessed_of_ne (by omega) m]
    exact h

/-- The table of the second stage stands in the memory. -/
structure Gdt (m : Mem) : Prop where
  code : Stands m 0x7E98 ⟨0xFF, 0xFF, 0, 0, 0, 0b10011010, 0b11001111, 0⟩
  data : Stands m 0x7EA0 ⟨0xFF, 0xFF, 0, 0, 0, 0b10010010, 0b11001111, 0⟩
  long : Stands m 0x7EA8 ⟨0, 0, 0, 0, 0, 0b10011010, 0b10101111, 0⟩

theorem gdt_stands {m : Mem} (h : Spells m 0x7E90 gdt) : Gdt m :=
  ⟨List.mem_pair.mpr (Or.inl (descriptorAt_spells (h.slice 8 8))),
    List.mem_pair.mpr (Or.inl (descriptorAt_spells (h.slice 16 8))),
    List.mem_pair.mpr (Or.inl (descriptorAt_spells (h.slice 24 8)))⟩

/-- The segments are in use: the table keeps standing. -/
theorem Gdt.setAccessed {m m' : Mem} {b : ℕ} (h : Gdt m) (hb : b = 0x7E9D ∨ b = 0x7EA5 ∨ b = 0x7EAD)
    (hm : ∀ x < 0x9000, m' x = setAccessed b m x) : Gdt m' :=
  ⟨h.code.setAccessed (by omega) fun i hi => hm _ (by omega),
    h.data.setAccessed (by omega) fun i hi => hm _ (by omega),
    h.long.setAccessed (by omega) fun i hi => hm _ (by omega)⟩

section Segments

variable {ac : Access} {I : Mem → Prop} {D : ℕ → Prop} {s : Loader}

/-- **A far jump** through the table. -/
theorem jump_spec (h : ac.Sound I D) (selector : ℕ) (mode : Mode) {d : Descriptor} (hm : I s.core.mem)
    (hg : s.gdtr = ⟨31, 0x7E90⟩) (hD : ∀ x, 0x7E90 ≤ x → x < 0x7EB0 → D x)
    (hsel : selector = 0x08 ∨ selector = 0x10 ∨ selector = 0x18) (hd : Stands s.core.mem (0x7E90 + selector) d)
    (hok : ∀ e ∈ [d, { d with access := d.access ||| 1 }],
      e.codeMode s.control.lma = some mode ∧ (mode = .bits64 ∨ e.isFlat = true)) :
    ∃ m, jump ac selector mode s = .ok { s.withMem m with mode := mode } ∧ I m ∧
      ∀ x, D x → m x = setAccessed (0x7E90 + selector + 5) s.core.mem x := by
  have hbase : s.gdtr.base = 0x7E90 := by rw [hg]
  have hlimit : s.gdtr.limit = 31 := by rw [hg]
  obtain ⟨hmode, hflat⟩ := hok _ hd
  obtain ⟨m, hseg, hI, hsame⟩ := segment_spec h s.gdtr (fun d => (d.codeMode s.control.lma).isSome) selector hm
    (by omega) (fun i hi => hD _ (by omega) (by omega)) (by rw [hbase, hmode]; rfl)
  rw [hbase] at hseg hsame
  refine ⟨m, ?_, hI, hsame⟩
  rw [jump, farJump, hseg]
  exact if_pos ⟨hmode, hflat⟩

/-- **The segment registers** are loaded. -/
theorem loadSegments_spec (h : ac.Sound I D) (hm : I s.core.mem) (hg : s.gdtr = ⟨31, 0x7E90⟩)
    (hD : ∀ x, 0x7E90 ≤ x → x < 0x7EB0 → D x) (hd : Gdt s.core.mem) :
    ∃ m, loadSegments ac s = .ok (s.withMem m) ∧ I m ∧ ∀ x, D x → m x = setAccessed 0x7EA5 s.core.mem x := by
  have hbase : s.gdtr.base = 0x7E90 := by rw [hg]
  have hlimit : s.gdtr.limit = 31 := by rw [hg]
  have hdata : ∀ e ∈ [(⟨0xFF, 0xFF, 0, 0, 0, 0b10010010, 0b11001111, 0⟩ : Descriptor),
      ⟨0xFF, 0xFF, 0, 0, 0, 0b10010010 ||| 1, 0b11001111, 0⟩],
      (e.usable && !e.executable && e.writable) = true ∧ e.isFlat = true := by decide
  obtain ⟨hok, hflat⟩ := hdata _ hd.data
  obtain ⟨m, hseg, hI, hsame⟩ := segment_spec h s.gdtr (fun d => d.usable && !d.executable && d.writable) 0x10 hm
    (by omega) (fun i hi => hD _ (by omega) (by omega)) (by rw [hbase]; exact hok)
  rw [hbase] at hseg hsame
  refine ⟨m, ?_, hI, hsame⟩
  rw [loadSegments, loadData, hseg]
  exact if_pos (Or.inr hflat)

end Segments

/-! ### Protected mode -/

theorem repMovsd_same (s : Loader) :
    repMovsd s = { s with core := (repMovsd s).core, esi := (repMovsd s).esi } := by
  fun_induction repMovsd s with
  | case1 s h => rfl
  | case2 s h ih => exact ih

/-- **`rep movsd`** with the direction flag clear copies upwards, to a place behind the source. -/
theorem repMovsd_spec (n : ℕ) (s : Loader) (hdf : s.core.df = false) (hn : s.core.ecx.toNat = n)
    (hapart : s.esi.toNat + 4 * n ≤ s.core.edi.toNat) (hedi : s.core.edi.toNat + 4 * n < 2 ^ 32) :
    (repMovsd s).core.mem = copy s.core.mem s.core.edi.toNat s.esi.toNat (4 * n) ∧
      (repMovsd s).core.df = false := by
  induction n generalizing s with
  | zero =>
    rw [repMovsd, if_pos (UInt32.toNat_inj.mp hn)]
    refine ⟨?_, hdf⟩
    ext1 x
    rw [copy, if_neg (by omega)]
  | succ n ih =>
    have hne := ne_zero_of_toNat hn
    have hcount : (s.core.ecx - 1).toNat = n := by
      rw [toNat_pred hne]
      omega
    have hdst : (movsd s).core.edi.toNat = s.core.edi.toNat + 4 := by
      rw [movsd, hdf]
      exact toNat_add_small (by change s.core.edi.toNat + 4 < 2 ^ 32; omega)
    have hsrc : (movsd s).esi.toNat = s.esi.toNat + 4 := by
      rw [movsd, hdf]
      exact toNat_add_small (by change s.esi.toNat + 4 < 2 ^ 32; omega)
    obtain ⟨hmem, hrest⟩ := ih (movsdRound s) hdf hcount
      (by change (movsd s).esi.toNat + _ ≤ (movsd s).core.edi.toNat; omega)
      (by change (movsd s).core.edi.toNat + _ < _; omega)
    rw [repMovsd, if_neg hne]
    refine ⟨?_, hrest⟩
    rw [hmem]
    change copy (movsd s).core.mem (movsd s).core.edi.toNat (movsd s).esi.toNat (4 * n) = _
    rw [hdst, hsrc]
    exact copy_word_front s.core.mem (4 * n) (by omega)

theorem repStosd_df (s : Machine) : (repStosd s).df = s.df := by
  fun_induction repStosd s with
  | case1 s h => rfl
  | case2 s h ih => exact ih

theorem buildTables_cr3 (s : Machine) : (buildTables s).cr3 = 0x9000 := by rw [buildTables]

/-- A byte that the tables do not cover. -/
theorem buildTables_apart {s : Machine} (hdf : s.df = false) {x : ℕ} (hx : x < 0x9000 ∨ 0xD000 ≤ x) :
    (buildTables s).mem x = s.mem x := by
  rw [buildTables_mem hdf, fill_of_apart (fun i hi => by omega), store32_of_apart (by omega),
    store32_of_apart (by omega), fill_of_apart (fun i hi => by omega)]

theorem movBytes_df (a : ℕ) (bs : List Byte) (s : Machine) : (movBytes a bs s).df = s.df := rfl

theorem movBytes_mem (a : ℕ) (bs : List Byte) (s : Machine) : (movBytes a bs s).mem = write s.mem a bs := rfl

theorem clearScreen_spec {s : Machine} (hdf : s.df = false) : (clearScreen s).df = false ∧
    ∀ x, x < 0xB8000 ∨ 0xB9F40 ≤ x → (clearScreen s).mem x = s.mem x := by
  have hfill := repStosd_mem 2000 { s with edi := 0xB8000, eax := 0x07200720, ecx := 2000 } hdf rfl
    (show (0xB8000 : UInt32).toNat + 4 * 2000 < 2 ^ 32 by decide)
  have hdf' := (repStosd_df { s with edi := 0xB8000, eax := 0x07200720, ecx := 2000 }).trans hdf
  have hedi : (0xB8000 : UInt32).toNat = 0xB8000 := by decide
  simp only [hedi] at hfill
  rw [clearScreen]
  refine ⟨(movBytes_df _ _ _).trans hdf', fun x hx => ?_⟩
  have hlen : [80, (0x4F : Byte), 77, 0x4F].length = 4 := rfl
  rw [movBytes_mem, write_of_apart (by rw [hlen]; omega), hfill, fill_of_apart (fun i hi => by omega)]

-- the machine `k` is a variable here and in `enterLong_spec`: it must not be computed where they are used
theorem copyKernel_spec (s : Loader) {k : Machine} (hdf : k.df = false) :
    ∃ k' x, copyKernel { s with core := k } = { s with core := k', esi := x } ∧
      k'.mem = copy k.mem 0x100000 0x10000 (4 * 8192) ∧ k'.df = false := by
  have hdst : (0x100000 : UInt32).toNat = 0x100000 := by decide
  have hsrc : (0x10000 : UInt32).toNat = 0x10000 := by decide
  obtain ⟨hmem, hdf'⟩ :=
    repMovsd_spec 8192 { s with esi := 0x10000, core := { k with edi := 0x100000, ecx := 8192 } } hdf
      (show (8192 : UInt32).toNat = 8192 by decide) (by simp only [hdst, hsrc]; omega)
        (by simp only [hdst]; omega)
  simp only [hdst, hsrc] at hmem
  exact ⟨_, _, repMovsd_same _, hmem, hdf'⟩

theorem getLsbD_orLme (efer : BitVec 64) : (orLme efer).getLsbD 8 = true := by
  rw [orLme, BitVec.getLsbD_append]
  simp

/-- What the 32-bit part relies on. -/
structure InProtected (s : Loader) : Prop where
  gdtr : s.gdtr = ⟨31, 0x7E90⟩
  gdt : Gdt s.core.mem
  df : s.core.df = false
  pe : s.control.pe = true
  pg : s.control.pg = false
  lma : s.control.lma = false
  la57 : s.control.la57 = false

/-- What the 64-bit part relies on. -/
structure InLong (s : Loader) : Prop where
  gdtr : s.gdtr = ⟨31, 0x7E90⟩
  gdt : Gdt s.core.mem
  tables : Tables s.core.mem
  cr3 : s.core.cr3 = 0x9000
  mode : s.mode = .bits64
  lma : s.control.lma = true

theorem beyond_low {x : ℕ} (hx : x < 0x9000) : Beyond x := ⟨by omega, Or.inl hx⟩

theorem beyond_high {x : ℕ} (h1 : 0xC000 ≤ x) (h2 : x < 2 ^ 30) : Beyond x := ⟨h2, Or.inr h1⟩

/-- **The switch** to 64-bit code. -/
theorem enterLong_spec (w : PhysWidth) {s : Loader} (hs : InProtected s) {k : Machine} (x : UInt32)
    (hcr3 : k.cr3 = 0x9000) (htab : Tables k.mem) (hgdt : Gdt k.mem) :
    ∃ t, enterLong w { s with core := k, esi := x } = .ok t ∧ InLong t ∧ t.esp = s.esp ∧ t.port92 = s.port92 ∧
      t.tty = s.tty ∧ ∀ a, Beyond a → t.core.mem a = setAccessed 0x7EAD k.mem a := by
  obtain ⟨c, hc, -, hlma, hla57⟩ :=
    enter_long (v := fun c => orLme c.efer) (fun c => getLsbD_orLme c.efer) hs.pe hs.pg hs.lma
  have hroot : k.cr3.toNat = 0x9000 := by
    rw [hcr3]
    decide
  obtain ⟨m, hjump, htab', hsame⟩ := jump_spec (s := { s with core := k, esi := x, control := c })
    (tables_sound w c.wp) 0x18 .bits64 htab hs.gdtr (fun _ _ h => beyond_low (by omega)) (Or.inr (Or.inr rfl))
    hgdt.long (by rw [hlma]; decide)
  have hrun : enterLong w { s with core := k, esi := x } =
      .ok { s with core := { k with mem := m }, esi := x, control := c, mode := .bits64 } := by
    rw [enterLong, hc]
    show (if c.la57 = true then _ else jump (paged w c.wp k.cr3.toNat) 0x18 .bits64 _) = _
    rw [hla57, hs.la57, if_neg Bool.false_ne_true, hroot, hjump]
    rfl
  exact ⟨_, hrun,
    ⟨hs.gdtr, hgdt.setAccessed (Or.inr (Or.inr rfl)) fun x hx => hsame x (beyond_low hx), htab', hcr3,
    rfl, hlma⟩, rfl, rfl, rfl, hsame⟩

/-- What the 32-bit part leaves in the memory. -/
structure Prepared (m m' : Mem) : Prop where
  image : ∀ i < 4 * 8192, m' (0x100000 + i) = m (0x10000 + i)
  low : ∀ x < 0x9000, m' x = setAccessed 0x7EAD (setAccessed 0x7EA5 m) x

/-- **The 32-bit part.** -/
theorem protectedMode_spec (w : PhysWidth) {s : Loader} (hs : InProtected s) :
    ∃ t, protectedMode w s = .ok t ∧ InLong t ∧ t.esp = 0x90000 ∧ t.port92 = s.port92 ∧ t.tty = s.tty ∧
      Prepared s.core.mem t.core.mem := by
  obtain ⟨m, hload, -, hm⟩ :=
    loadSegments_spec (s := s) Access.flat_sound trivial hs.gdtr (fun _ _ _ => trivial) hs.gdt
  have hgdt := hs.gdt.setAccessed (Or.inr (Or.inl rfl)) fun x _ => hm x trivial
  have hparts : protectedMode w s = enterLong w (buildLoaderTables (copyKernel
      { s.withMem m with esp := 0x90000, core := clearScreen (s.withMem m).core })) := by
    rw [protectedMode, hload, Except.bind]
  obtain ⟨hdf₁, hscreen⟩ := clearScreen_spec (s := (s.withMem m).core) hs.df
  generalize clearScreen (s.withMem m).core = k₁ at hparts hdf₁ hscreen
  obtain ⟨k, x, hcopy, hmem, hdf₂⟩ := copyKernel_spec { s.withMem m with esp := 0x90000 } hdf₁
  have hlow : ∀ x < 0x9000, (buildTables k).mem x = m x := by
    intro x hx
    rw [buildTables_apart hdf₂ (Or.inl hx), hmem, copy, if_neg (by omega), hscreen x (by omega)]
    rfl
  have hgdt' : Gdt (buildTables k).mem :=
    hs.gdt.setAccessed (Or.inr (Or.inl rfl)) fun x hx => (hlow x hx).trans (hm x trivial)
  have hs' : InProtected { s.withMem m with esp := 0x90000 } :=
    ⟨hs.gdtr, hgdt, hs.df, hs.pe, hs.pg, hs.lma, hs.la57⟩
  obtain ⟨t, hrun, hlong, hesp, hport, htty, hsame⟩ :=
    enterLong_spec w hs' x (buildTables_cr3 k) (tables_buildTables hdf₂) hgdt'
  refine ⟨t, ?_, hlong, hesp, hport, htty, fun i hi => ?_, fun x hx => ?_⟩
  · exact hparts.trans ((congrArg (fun s => enterLong w (buildLoaderTables s)) hcopy).trans hrun)
  · rw [hsame _ (beyond_high (by omega) (by omega)), setAccessed_of_ne (by omega),
      buildTables_apart hdf₂ (by omega), hmem, copy, if_pos (by omega), Nat.add_sub_cancel_left,
      hscreen _ (by omega)]
    exact (hm _ trivial).trans (setAccessed_of_ne (by omega) _)
  · have hstart : ∀ x < 0x9000, (buildTables k).mem x = setAccessed 0x7EA5 s.core.mem x := fun x hx =>
      (hlow x hx).trans (hm x trivial)
    rw [hsame x (beyond_low hx), setAccessed_congr (hstart _ (by decide)) (hstart x hx)]

/-- **The switch** to 32-bit code. -/
theorem enterProtected_spec {s : Loader} (himage : ∀ l : Label, Spells s.core.mem l.address.toNat l.bytes)
    (hready : Ready s) (hpg : s.control.pg = false) (hla57 : s.control.la57 = false) :
    ∃ t, enterProtected s = .ok t ∧ InProtected t ∧ t.port92 = s.port92 ||| 2 ∧ t.tty = s.tty ∧
      ∀ x, t.core.mem x = setAccessed 0x7E9D s.core.mem x := by
  have hdesc : Spells s.core.mem 0x7EB0 gdtDescriptor := himage .gdtDescriptor
  have hgdt := gdt_stands (himage .gdt)
  have hlgdt : loadGdtr s = ⟨31, 0x7E90⟩ := by
    rw [loadGdtr, hready.address]
    show (⟨load16 s.core.mem 0x7EB0, load32 s.core.mem (0x7EB0 + 2) % 2 ^ 24⟩ : Gdtr) = _
    rw [load16_dw (x := 31) (hdesc.take 2), load32_dd (x := 0x7E90) (hdesc.slice 2 4)]
    rfl
  obtain ⟨c, hc, hpe, hpg', hlma, hcr4⟩ := writeCr0_protect hpg
  have hla57' : c.la57 = false := by
    rw [Control.la57, hcr4]
    exact hla57
  obtain ⟨m, hjump, -, hm⟩ :=
    jump_spec (s := { s with gdtr := loadGdtr s, port92 := s.port92 ||| 2, control := c })
      Access.flat_sound 0x08 .bits32 trivial hlgdt (fun _ _ _ => trivial) (Or.inl rfl) hgdt.code
      (by rw [hlma]; decide)
  have hrun : enterProtected s = .ok { s.withMem m with
      gdtr := loadGdtr s, port92 := s.port92 ||| 2, control := c, mode := .bits32 } := by
    rw [enterProtected]
    simp only [hc]
    exact hjump
  exact ⟨_, hrun,
    ⟨hlgdt, hgdt.setAccessed (Or.inl rfl) fun x _ => hm x trivial, hready.df, hpe, hpg', hlma, hla57'⟩,
    rfl, rfl, fun x => hm x trivial⟩

/-! ### Long mode -/

/-- `n` bytes from `src` on stand at `dst` with the attribute `0x0F`; in `D` nothing else is changed. -/
structure Displays (D : ℕ → Prop) (m m' : Mem) (dst src n : ℕ) : Prop where
  char : ∀ i < n, m' (dst + 2 * i) = m (src + i)
  attr : ∀ i < n, m' (dst + 2 * i + 1) = 0x0F
  frame : ∀ x, D x → x < dst ∨ dst + 2 * n ≤ x → m' x = m x

section Display

variable {ac : Access} {I : Mem → Prop} {D : ℕ → Prop} {m m₁ m' : Mem} {dst src n : ℕ}

theorem Displays.cons (h : Displays D m m₁ dst src 1) (h' : Displays D m₁ m' (dst + 2) (src + 1) n)
    (hdst : ∀ i < 2, D (dst + i)) (hsrc : ∀ i < n, D (src + 1 + i)) (hapart : dst + 2 * (n + 1) ≤ src) :
    Displays D m m' dst src (n + 1) := by
  refine ⟨fun i hi => ?_, fun i hi => ?_, fun x hD hx => ?_⟩
  · rcases Nat.eq_zero_or_pos i with rfl | hpos
    · rw [h'.frame _ (hdst 0 (by omega)) (by omega)]
      exact h.char 0 (by omega)
    · obtain ⟨j, rfl⟩ : ∃ j, i = j + 1 := ⟨i - 1, by omega⟩
      rw [show dst + 2 * (j + 1) = dst + 2 + 2 * j by omega, h'.char j (by omega),
        h.frame _ (hsrc j (by omega)) (by omega), show src + 1 + j = src + (j + 1) by omega]
  · rcases Nat.eq_zero_or_pos i with rfl | hpos
    · rw [h'.frame _ (hdst 1 (by omega)) (by omega)]
      exact h.attr 0 (by omega)
    · obtain ⟨j, rfl⟩ : ∃ j, i = j + 1 := ⟨i - 1, by omega⟩
      rw [show dst + 2 * (j + 1) + 1 = dst + 2 + 2 * j + 1 by omega, h'.attr j (by omega)]
  · rw [h'.frame x hD (by omega), h.frame x hD (by omega)]

/-- One round of the loop. -/
theorem printByte_spec (h : ac.Sound I D) {rsi rdi : UInt64} (hm : I m) (hsrc : D rsi.toNat)
    (hdst : ∀ i < 2, D (rdi.toNat + i)) :
    ∃ m₁, (∀ rcx, printKernelBytes ac rcx rsi rdi m =
        if rcx - 1 = 0 then some m₁ else printKernelBytes ac (rcx - 1) (rsi + 1) (rdi + 2) m₁) ∧
      I m₁ ∧ Displays D m m₁ rdi.toNat rsi.toNat 1 := by
  obtain ⟨m₀, hload, hm₀, hsame⟩ := h.load hm hsrc
  obtain ⟨m₁, hstores, hm₁, hput⟩ := h.stores rdi.toNat [m rsi.toNat, 0x0F] hm₀ hdst
  refine ⟨m₁, fun rcx => ?_, hm₁, fun i hi => ?_, fun i hi => ?_, fun x hD hx => ?_⟩
  · rw [printKernelBytes, hload, Option.bind_some, hstores, Option.bind_some]
  · obtain rfl : i = 0 := by omega
    exact (hput _ (hdst 0 (by omega))).trans (write_apply (i := 0) Nat.two_pos)
  · obtain rfl : i = 0 := by omega
    exact (hput _ (hdst 1 (by omega))).trans (write_apply (i := 1) Nat.one_lt_two)
  · rw [hput x hD, write_of_apart hx, hsame x hD]

/-- **`.print_kernel_bytes`** displays the bytes, from a source behind the screen. -/
theorem printKernelBytes_spec (h : ac.Sound I D) (n : ℕ) (rcx rsi rdi : UInt64) (hm : I m)
    (hn : rcx.toNat = n + 1) (hdst : ∀ i < 2 * (n + 1), D (rdi.toNat + i))
    (hsrc : ∀ i < n + 1, D (rsi.toNat + i)) (hapart : rdi.toNat + 2 * (n + 1) ≤ rsi.toNat)
    (hhi : rsi.toNat + (n + 1) < 2 ^ 64) :
    ∃ m', printKernelBytes ac rcx rsi rdi m = some m' ∧ I m' ∧ Displays D m m' rdi.toNat rsi.toNat (n + 1) := by
  have hone : (1 : UInt64).toNat = 1 := rfl
  have htwo : (2 : UInt64).toNat = 2 := rfl
  induction n generalizing m rcx rsi rdi with
  | zero =>
    obtain ⟨m₁, hround, hm₁, hd⟩ := printByte_spec h hm (hsrc 0 (by omega)) fun i hi => hdst i (by omega)
    have hlast : rcx - 1 = 0 := by
      apply UInt64.toNat_inj.mp
      rw [UInt64.toNat_sub_of_le _ _ (UInt64.le_iff_toNat_le.mpr (by omega)), hn]
      rfl
    exact ⟨m₁, by rw [hround, if_pos hlast], hm₁, hd⟩
  | succ n ih =>
    obtain ⟨m₁, hround, hm₁, hd⟩ := printByte_spec h hm (hsrc 0 (by omega)) fun i hi => hdst i (by omega)
    have hcount : (rcx - 1).toNat = n + 1 := by
      rw [UInt64.toNat_sub_of_le _ _ (UInt64.le_iff_toNat_le.mpr (by omega)), hn]
      rfl
    have hgo : rcx - 1 ≠ 0 := fun h0 => by
      rw [h0] at hcount
      cases hcount
    have hsi : (rsi + 1).toNat = rsi.toNat + 1 := by
      rw [UInt64.toNat_add]
      omega
    have hdi : (rdi + 2).toNat = rdi.toNat + 2 := by
      rw [UInt64.toNat_add]
      omega
    have hsrc' : ∀ i < n + 1, D (rsi.toNat + 1 + i) := fun i hi => by
      rw [Nat.add_assoc]
      exact hsrc _ (by omega)
    have hdst' : ∀ i < 2 * (n + 1), D (rdi.toNat + 2 + i) := fun i hi => by
      rw [Nat.add_assoc]
      exact hdst _ (by omega)
    obtain ⟨m', hrun, hm', hd'⟩ := ih _ _ _ hm₁ hcount (hdi ▸ hdst') (hsi ▸ hsrc') (by omega) (by omega)
    rw [hsi, hdi] at hd'
    refine ⟨m', ?_, hm', hd.cons hd' (fun i hi => hdst i (by omega)) hsrc' hapart⟩
    rw [hround, if_neg hgo, hrun]

end Display

/-- **The 64-bit part** jumps to the kernel; apart from the tables it changes the screen and an accessed bit. -/
theorem longMode_spec (w : PhysWidth) {s : Loader} (hs : InLong s) :
    ∃ m, longMode w s = .ok ⟨0x100000, s.mode, s.control, 0x9000, s.esp, s.port92, m, s.tty⟩ ∧ Tables m ∧
      (∀ x, Beyond x → x < 0xB8000 ∨ 0xB8180 ≤ x → m x = setAccessed 0x7EA5 s.core.mem x) ∧
      ∀ i < 16, m (0xB8160 + 2 * i) = s.core.mem (0x100000 + i) ∧ m (0xB8160 + 2 * i + 1) = 0x0F := by
  have hsound := tables_sound w s.control.wp
  have hcr3 : s.core.cr3.toNat = 0x9000 := by
    rw [hs.cr3]
    decide
  have hscreen : ∀ {a n : ℕ}, 0xB8000 ≤ a → a + n ≤ 0x110000 → ∀ i < n, Beyond (a + i) := fun h1 h2 i hi =>
    beyond_high (by omega) (by omega)
  obtain ⟨m₀, hload, ht₀, hm₀⟩ :=
    loadSegments_spec hsound hs.tables hs.gdtr (fun _ _ h => beyond_low (by omega)) hs.gdt
  -- each store finds the tables as the one before left them
  obtain ⟨m₁, h₁, ht₁, hm₁⟩ := hsound.stores 0xB80A0 [54, 0x5F, 52, 0x5F] ht₀
    (hscreen (by decide) (by decide))
  obtain ⟨m₂, h₂, ht₂, hm₂⟩ := hsound.stores 0xB8000 [0x78, 0x56, 0x34, 0x12, 0x78, 0x56, 0x34, 0x12] ht₁
    (hscreen (by decide) (by decide))
  obtain ⟨m₃, h₃, ht₃, hm₃⟩ := hsound.stores 0xB80A4 [76, 0x5F, 77, 0x5F] ht₂
    (hscreen (by decide) (by decide))
  obtain ⟨m₄, h₄, ht₄, hm₄⟩ := hsound.stores 0xB8140 [74, 0xEF] ht₃ (hscreen (by decide) (by decide))
  have hframe : ∀ x, Beyond x → x < 0xB8000 ∨ 0xB8180 ≤ x → m₄ x = setAccessed 0x7EA5 s.core.mem x := by
    intro x hD hx
    rw [hm₄ x hD, write_of_apart (show x < 0xB8140 ∨ 0xB8140 + 2 ≤ x by omega), hm₃ x hD,
      write_of_apart (show x < 0xB80A4 ∨ 0xB80A4 + 4 ≤ x by omega), hm₂ x hD,
      write_of_apart (show x < 0xB8000 ∨ 0xB8000 + 8 ≤ x by omega), hm₁ x hD,
      write_of_apart (show x < 0xB80A0 ∨ 0xB80A0 + 4 ≤ x by omega), hm₀ x hD]
  have hrdi : (0xB8160 : UInt64).toNat = 0xB8160 := by decide
  have hrsi : (0x100000 : UInt64).toNat = 0x100000 := by decide
  obtain ⟨m, hprint, ht, hd⟩ := printKernelBytes_spec hsound 15 16 0x100000 0xB8160 ht₄ (by decide)
    (by rw [hrdi]; exact hscreen (by decide) (by decide)) (by rw [hrsi]; exact hscreen (by decide) (by decide))
    (by decide) (by decide)
  rw [hrdi, hrsi] at hd
  refine ⟨m, ?_, ht, fun x hD hx => ?_, fun i hi => ⟨?_, hd.attr i hi⟩⟩
  · simp only [longMode, hcr3, hload]
    show (orFault (Access.stores _ _ _ m₀)).bind _ = _
    rw [h₁]
    show (if s.control.lma = false then _ else _) = _
    rw [hs.lma, if_neg (by decide), h₂, Option.bind_some, h₃, Option.bind_some, h₄, Option.bind_some, hprint]
    exact congrArg (fun a => Except.ok (Entered.mk 0x100000 s.mode s.control a s.esp s.port92 m s.tty)) hcr3
  · rw [hd.frame x hD (by omega), hframe x hD hx]
  · rw [hd.char i hi, hframe _ (beyond_high (by omega) (by omega)) (by omega), setAccessed_of_ne (by omega)]

/-! ### The result -/

/-- The segment loads, in their order. -/
theorem setAccessed_segments (m : Mem) (x : ℕ) :
    setAccessed 0x7EA5 (setAccessed 0x7EAD (setAccessed 0x7EA5 (setAccessed 0x7E9D m))) x =
      if x = 0x7E9D ∨ x = 0x7EA5 ∨ x = 0x7EAD then m x ||| 1 else m x := by
  simp only [setAccessed, Function.update_apply]
  by_cases h1 : x = 0x7E9D
  · simp [h1]
  · by_cases h2 : x = 0x7EA5
    · simp [h2, or_one_or_one]
    · by_cases h3 : x = 0x7EAD
      · simp [h3]
      · simp [h1, h2, h3]

/-- What the code behind the disk read makes of the machine `s`. -/
structure Switched (w : PhysWidth) (s : Loader) (e : Entered) : Prop where
  rip : e.rip = 0x100000
  mode : e.mode = .bits64
  active : e.control.lma = true
  a20 : e.port92 = s.port92 ||| 2
  stack : e.esp = 0x90000
  tty : e.tty = s.tty
  mapped : ∀ v < 2 ^ 30, pageWalk w e.mem e.cr3 v = .mapped v true .mib2
  image : ∀ i < 512 * 64, e.mem (0x100000 + i) = s.core.mem (0x10000 + i)
  shown : ∀ i < 16, e.mem (0xB8160 + 2 * i) = s.core.mem (0x10000 + i) ∧ e.mem (0xB8160 + 2 * i + 1) = 0x0F
  loader : ∀ x < 0x9000,
    e.mem x = if x = 0x7E9D ∨ x = 0x7EA5 ∨ x = 0x7EAD then s.core.mem x ||| 1 else s.core.mem x

/-- **From real mode to the kernel.** -/
theorem switch_spec (w : PhysWidth) {s : Loader}
    (himage : ∀ l : Label, Spells s.core.mem l.address.toNat l.bytes) (hready : Ready s)
    (hpg : s.control.pg = false) (hla57 : s.control.la57 = false) :
    ∃ t u e, enterProtected s = .ok t ∧ protectedMode w t = .ok u ∧ longMode w u = .ok e ∧ Switched w s e := by
  obtain ⟨t, hprot, ht, hport, htty, hmem⟩ := enterProtected_spec himage hready hpg hla57
  obtain ⟨u, hlong, hu, hesp, hport', htty', hprep⟩ := protectedMode_spec w ht
  obtain ⟨m, hjump, htab, hframe, hshown⟩ := longMode_spec w hu
  have hcopied : ∀ i < 512 * 64, u.core.mem (0x100000 + i) = s.core.mem (0x10000 + i) := fun i hi => by
    rw [hprep.image i (by omega), hmem, setAccessed_of_ne (by omega)]
  have hlow : ∀ x < 0x9000, u.core.mem x =
      setAccessed 0x7EAD (setAccessed 0x7EA5 (setAccessed 0x7E9D s.core.mem)) x := fun x hx => by
    rw [hprep.low x hx, funext hmem]
  refine ⟨t, u, _, hprot, hlong, hjump, rfl, hu.mode, hu.lma, hport'.trans hport, hesp, htty'.trans htty,
    fun v hv => htab.walk w hv, fun i hi => ?_, fun i hi => ⟨?_, (hshown i hi).2⟩, fun x hx => ?_⟩
  · show m _ = _
    rw [hframe _ (beyond_high (by omega) (by omega)) (by omega), setAccessed_of_ne (by omega), hcopied i hi]
  · rw [← hcopied i (by omega)]
    exact (hshown i hi).1
  · show m x = _
    rw [hframe x (beyond_low hx) (by omega), setAccessed_congr (hlow _ (by decide)) (hlow x hx),
      setAccessed_segments]

/-- What the kernel finds: 64-bit code at `0x100000` behind an identity map of the first GiB; the sectors that
were read, and behind them what stood in the memory behind the read buffer; the first bytes of the kernel on the
screen; the loader as it was, with the three segments in use marked as accessed. -/
structure HandedOver (w : PhysWidth) (disk : ℕ → Byte) (s : Loader) (e : Entered) : Prop where
  rip : e.rip = 0x100000
  mode : e.mode = .bits64
  active : e.control.lma = true
  a20 : e.port92 = s.port92 ||| 2
  stack : e.esp = 0x90000
  tty : e.tty = s.tty ++ (stage2LoadedMsg ++ [13, 10]) ++ (kernelLoadedMsg ++ [13, 10])
  mapped : ∀ v < 2 ^ 30, pageWalk w e.mem e.cr3 v = .mapped v true .mib2
  image : ∀ i < 512 * 32, e.mem (0x100000 + i) = disk (512 * 2048 + i)
  stale : ∀ i, 512 * 32 ≤ i → i < 512 * 64 → e.mem (0x100000 + i) = s.core.mem (0x10000 + i)
  shown : ∀ i < 16, e.mem (0xB8160 + 2 * i) = disk (512 * 2048 + i) ∧ e.mem (0xB8160 + 2 * i + 1) = 0x0F
  loader : ∀ x, 0x7E00 ≤ x → x < 0x9000 →
    e.mem x = if x = 0x7E9D ∨ x = 0x7EA5 ∨ x = 0x7EAD then s.core.mem x ||| 1 else s.core.mem x

theorem Switched.handedOver {w : PhysWidth} {disk : ℕ → Byte} {s t : Loader} {e : Entered} (h : Switched w t e)
    (hkept : Kept ReadBuffer s t) (hbytes : ∀ i < 512 * 32, t.core.mem (0x10000 + i) = disk (512 * 2048 + i))
    (htty : t.tty = s.tty ++ (stage2LoadedMsg ++ [13, 10]) ++ (kernelLoadedMsg ++ [13, 10])) :
    HandedOver w disk s e := by
  have hapart : ∀ x, 0x7E00 ≤ x → x < 0x80000 → x < 0x10000 ∨ 0x10000 + 512 * 32 ≤ x →
      t.core.mem x = s.core.mem x := by
    intro x h1 h2 hx
    refine hkept.ram x h1 h2 fun hin => ?_
    have := hin.1
    have := hin.2
    omega
  refine ⟨h.rip, h.mode, h.active, ?_, h.stack, h.tty.trans htty, h.mapped, fun i hi => ?_, fun i h1 h2 => ?_,
    fun i hi => ?_, fun x h1 h2 => ?_⟩
  · rw [h.a20, hkept.port92]
  · rw [h.image i (by omega), hbytes i hi]
  · rw [h.image i h2, hapart _ (by omega) (by omega) (by omega)]
  · rw [← hbytes i (by omega)]
    exact h.shown i hi
  · rw [h.loader x h2, hapart x h1 (by omega) (by omega)]

/-- The parts of the second stage, one behind the other. -/
theorem stage2_eq (w : PhysWidth) {b : Bios} {s r t u v : Loader} (hread : readKernel b s = .ok r)
    (hcf : r.cf = false) (hprint : printString b .kernelLoadedMsg 0x7E19 r = .ok t)
    (hprot : enterProtected t = .ok u) (hlong : protectedMode w u = .ok v) : stage2 w b s = longMode w v := by
  rw [stage2, hread, Except.bind, hcf, if_neg Bool.false_ne_true, hprint, Except.bind, hprot, Except.bind,
    hlong, Except.bind]

/-- **The kernel is handed over.**  With its data in the memory and a BIOS that keeps its promises, the second
stage never faults: it reaches `disk_error` if the read reports an error, and the kernel otherwise.  Of the 32
KiB copied to the place of the kernel only the first half was read from the disk. -/
theorem kernel_handed_over (w : PhysWidth) (b : Bios) (disk : ℕ → Byte) (s : Loader) (hb : b.Ok disk)
    (hs : AtStart s) : ∃ r, readKernel b s = .ok r ∧ (r.cf = true → stage2 w b s = .error (.diskError r)) ∧
      (r.cf = false → ∃ e, stage2 w b s = .ok e ∧ HandedOver w disk s e) := by
  obtain ⟨r, hread, hr⟩ := readKernel_spec hb hs
  refine ⟨r, hread, fun hcf => ?_, fun hcf => ?_⟩
  · rw [stage2, hread, Except.bind, if_pos hcf]
  · obtain ⟨hkept, htty, hbytes⟩ := hr hcf
    have hready := hkept.ready hs.ready
    -- the second message keeps what was read
    obtain ⟨t, hprint, hkept', htty'⟩ := printString_spec hb hready (by rw [hkept.esp]; exact hs.sp)
      .kernelLoadedMsg kernelLoadedMsg rfl (by decide) (by decide) (hkept.label hs.image _) (by decide)
      (by decide) 0x7E19
    have hkept₂ : Kept ReadBuffer s t := (hkept.trans hkept').mono fun _ hx => hx.elim id False.elim
    obtain ⟨u, v, e, hprot, hlong, hjump, h⟩ := switch_spec w (hkept₂.label hs.image) (hkept'.ready hready)
      (by rw [hkept₂.control]; exact hs.pg) (by rw [hkept₂.control]; exact hs.la57)
    refine ⟨e, by rw [stage2_eq w hread hcf hprint hprot hlong, hjump],
      h.handedOver hkept₂ (fun i hi => ?_) (by rw [htty', htty])⟩
    rw [hkept'.ram _ (by omega) (by omega) id, hbytes i hi]

/-- The data of the second stage, from its first label on; `disk_error_msg` and the filling in front of `dap`
are between the messages and the packet. -/
def sampleData : List Byte :=
  Label.stage2LoadedMsg.bytes ++ Label.kernelLoadedMsg.bytes ++ (str "Error loading kernel!" ++ [0]) ++
    [0x90, 0x90, 0x90] ++ Label.dap.bytes ++ Label.gdt.bytes ++ Label.gdtDescriptor.bytes

/-- A BIOS whose disk read never fails. -/
def sampleBios (disk : ℕ → Byte) : Bios where
  int10 := id
  int13 s := { s.withMem fun x =>
      if s.packet.buffer ≤ x ∧ x < s.packet.buffer + 512 * s.packet.sectors then
        disk (512 * s.packet.lba + (x - s.packet.buffer))
      else s.core.mem x with cf := false }

theorem sampleBios_ok (disk : ℕ → Byte) : (sampleBios disk).Ok disk := by
  refine ⟨fun s _ _ => ⟨⟨rfl, rfl, rfl, rfl, rfl, rfl, fun _ _ _ _ => rfl⟩, rfl, rfl, rfl⟩,
    fun s _ _ _ _ _ _ _ => ⟨⟨rfl, rfl, rfl, rfl, rfl, rfl, fun x _ _ hx => if_neg hx⟩, rfl, fun i hi => ?_⟩⟩
  show (if _ then _ else _) = _
  rw [if_pos (by omega), Nat.add_sub_cancel_left]

/-- The processor at the start of the second stage, over a memory of `0xCC`. -/
def sampleLoader : Loader where
  core := ⟨0, 0, 0, 0, false, write (fun _ => 0xCC) 0x7E48 sampleData⟩
  edx := 0
  esi := 0
  esp := 0x7C00
  ds := 0
  ss := 0
  cf := false
  gdtr := ⟨0, 0⟩
  control := ⟨0x10, 0, 0⟩
  port92 := 0
  mode := .bits16
  tty := []

theorem sampleLoader_start : AtStart sampleLoader := by
  refine ⟨fun l => ?_, rfl, rfl, by decide, rfl, by decide, by decide, by decide⟩
  cases l <;> (unfold Spells; decide +kernel)

theorem readKernel_int13 {b : Bios} {s r : Loader} (h : readKernel b s = .ok r) : ∃ t, r = b.int13 t := by
  rw [readKernel] at h
  cases hp : printString b .stage2LoadedMsg 0x7E06 s with
  | error e =>
    rw [hp] at h
    cases h
  | ok t =>
    rw [hp] at h
    exact ⟨_, (Except.ok.inj h).symm⟩

/-- The last byte that was read and the first one that was not, a descriptor, and what is on the screen. -/
theorem kernel_handed_sample :
    ∃ e, stage2 ⟨40, by decide, by decide⟩ (sampleBios fun i => UInt8.ofNat i) sampleLoader = .ok e ∧
    e.mem 0x103FFF = 0xFF ∧ e.mem 0x104000 = 0xCC ∧ e.mem 0x7EA5 = 0x93 ∧ e.mem 0xB8162 = 1 ∧
    e.tty = str "Stage 2 loaded!\r\nKernel loaded!\r\n" := by
  obtain ⟨r, hread, -, hok⟩ := kernel_handed_over ⟨40, by decide, by decide⟩ (sampleBios fun i => UInt8.ofNat i)
    (fun i => UInt8.ofNat i) sampleLoader (sampleBios_ok _) sampleLoader_start
  obtain ⟨t, rfl⟩ := readKernel_int13 hread
  obtain ⟨e, he, h⟩ := hok rfl
  refine ⟨e, he, h.image 0x3FFF (by omega), h.stale 0x4000 (by omega) (by omega), ?_,
    (h.shown 1 (by omega)).1, ?_⟩
  · rw [h.loader 0x7EA5 (by decide) (by decide)]
    decide +kernel
  · rw [h.tty]
    decide +kernel

end FoxOS
