import FoxOS.Boot.Stage2

/-!
# FoxOS.Boot.RealMode — the second stage before the switch

What the 16-bit part of `stage2.asm` does over a BIOS that keeps its promises (`Bios.Ok`): the messages are
printed (`printString_spec`), and a disk read without an error leaves the sectors in the buffer and the rest of
the memory as it was (`readKernel_spec`).  Neither stage sets `ds` or the direction flag; both have to be zero
(`AtStart`).
-/

namespace FoxOS

open ByteMem PageWalk LongMode

/-! ### Registers -/

section Registers

variable (x : UInt32)

theorem byte1_setByte1 (b : Byte) : byte1 (setByte1 x b) = b := by
  have hx := x.toNat_lt
  have hb := b.toNat_lt
  apply UInt8.toNat_inj.mp
  rw [byte1, setByte1, UInt8.toNat_ofNat', UInt32.toNat_ofNat']
  omega

theorem byte0_setByte0 (b : Byte) : byte0 (setByte0 x b) = b := by
  have hx := x.toNat_lt
  have hb := b.toNat_lt
  apply UInt8.toNat_inj.mp
  rw [byte0, setByte0, UInt8.toNat_ofNat', UInt32.toNat_ofNat']
  omega

theorem byte0_setByte1 (b : Byte) : byte0 (setByte1 x b) = byte0 x := by
  have hx := x.toNat_lt
  have hb := b.toNat_lt
  apply UInt8.toNat_inj.mp
  rw [byte0, byte0, setByte1, UInt8.toNat_ofNat', UInt8.toNat_ofNat', UInt32.toNat_ofNat']
  omega

theorem byte1_setByte0 (b : Byte) : byte1 (setByte0 x b) = byte1 x := by
  have hx := x.toNat_lt
  have hb := b.toNat_lt
  apply UInt8.toNat_inj.mp
  rw [byte1, byte1, setByte0, UInt8.toNat_ofNat', UInt8.toNat_ofNat', UInt32.toNat_ofNat']
  omega

theorem low_setLow (v : UInt16) : low (setLow x v) = v := by
  have hx := x.toNat_lt
  have hv := v.toNat_lt
  apply UInt16.toNat_inj.mp
  rw [low, setLow, UInt16.toNat_ofNat', UInt32.toNat_ofNat']
  omega

theorem setLow_setLow (u : UInt16) : setLow (setLow x u) (low x) = x := by
  have hx := x.toNat_lt
  have hu := u.toNat_lt
  apply UInt32.toNat_inj.mp
  rw [setLow, setLow, low, UInt32.toNat_ofNat', UInt32.toNat_ofNat', UInt16.toNat_ofNat']
  omega

end Registers

/-! ### Data in the memory -/

section Data

variable {m : Mem} {a : ℕ}

theorem load16_dw {x : UInt16} (h : Spells m a (dw x)) : load16 m a = x.toNat := by
  have hx := x.toNat_lt
  have h1 : m (a + 1) = UInt8.ofNat (x.toNat / 2 ^ 8) := h 1 Nat.one_lt_two
  rw [load16, h.head, h1, UInt8.toNat_ofNat', UInt8.toNat_ofNat']
  omega

theorem load32_eq (m : Mem) (a : ℕ) : load32 m a = load16 m a + 2 ^ 16 * load16 m (a + 2) := by
  rw [load32, load16, load16, Nat.add_assoc a 2 1]
  omega

theorem load32_dd {x : UInt32} (h : Spells m a (dd x)) : load32 m a = x.toNat := by
  have hx := x.toNat_lt
  rw [load32_eq, load16_dw (h.take 2), load16_dw (h.slice 2 2), UInt16.toNat_ofNat', UInt16.toNat_ofNat']
  omega

theorem load64_dq {x : UInt64} (h : Spells m a (dq x)) : load64 m a = x.toNat := by
  have hx := x.toNat_lt
  rw [load64, load32_dd (h.take 4), load32_dd (h.slice 4 4), UInt32.toNat_ofNat', UInt32.toNat_ofNat']
  omega

theorem packetAt_dap (h : Spells m a dap) : packetAt m a = ⟨32, 0x10000, 2048⟩ := by
  rw [packetAt, load16_dw (x := 32) (h.slice 2 2), load16_dw (x := 0x0000) (h.slice 4 2),
    load16_dw (x := 0x1000) (h.slice 6 2), load64_dq (x := 2048) (h.slice 8 8)]
  rfl

theorem descriptorAt_spells {b0 b1 b2 b3 b4 b5 b6 b7 : Byte} (h : Spells m a [b0, b1, b2, b3, b4, b5, b6, b7]) :
    descriptorAt m a = ⟨b0, b1, b2, b3, b4, b5, b6, b7⟩ := by
  have h1 : m (a + 1) = b1 := h 1 (by simp)
  have h2 : m (a + 2) = b2 := h 2 (by simp)
  have h3 : m (a + 3) = b3 := h 3 (by simp)
  have h4 : m (a + 4) = b4 := h 4 (by simp)
  have h5 : m (a + 5) = b5 := h 5 (by simp)
  have h6 : m (a + 6) = b6 := h 6 (by simp)
  have h7 : m (a + 7) = b7 := h 7 (by simp)
  rw [descriptorAt, h.head, h1, h2, h3, h4, h5, h6, h7]

end Data

/-! ### What the BIOS keeps -/

section Kept

variable {P Q : ℕ → Prop} {s t u : Loader}

theorem Kept.trans (h : Kept P s t) (h' : Kept Q t u) : Kept (fun x => P x ∨ Q x) s u := by
  refine ⟨h'.ds.trans h.ds, h'.ss.trans h.ss, h'.esp.trans h.esp, h'.df.trans h.df, h'.control.trans h.control,
    h'.port92.trans h.port92, fun x h1 h2 hx => ?_⟩
  rw [h'.ram x h1 h2 fun hq => hx (Or.inr hq), h.ram x h1 h2 fun hp => hx (Or.inl hp)]

theorem Kept.mono (h : Kept P s t) (hPQ : ∀ x, P x → Q x) : Kept Q s t :=
  ⟨h.ds, h.ss, h.esp, h.df, h.control, h.port92, fun x h1 h2 hx => h.ram x h1 h2 fun hp => hx (hPQ x hp)⟩

/-- Nothing of the memory is changed by either. -/
theorem Kept.trans_all (h : Kept (fun _ => False) s t) (h' : Kept (fun _ => False) t u) :
    Kept (fun _ => False) s u :=
  (h.trans h').mono fun _ hx => hx.elim id id

theorem Kept.lowStack (h : Kept P s t) (hs : s.LowStack) : t.LowStack := by
  rw [Loader.LowStack, h.ss, h.esp]
  exact hs

/-- The registers that the real-mode code relies on. -/
structure Ready (s : Loader) : Prop where
  ds : s.ds = 0
  stack : s.LowStack
  df : s.core.df = false

theorem Kept.ready (h : Kept P s t) (hs : Ready s) : Ready t :=
  ⟨h.ds.trans hs.ds, h.lowStack hs.stack, h.df.trans hs.df⟩

theorem Ready.address (h : Ready s) (offset : UInt16) : s.address offset = offset.toNat := by
  rw [Loader.address, h.ds]
  exact Nat.zero_add _

end Kept

section Updates

-- The new values are variables: with a computed register in its place the kernel compares the registers first.
variable (s : Loader) (x y z : UInt32) (v : UInt16)

theorem withEax_kept : Kept (fun _ => False) s (s.withEax x) := ⟨rfl, rfl, rfl, rfl, rfl, rfl, fun _ _ _ _ => rfl⟩

theorem withEax_eax : (s.withEax x).core.eax = x := rfl

theorem lodsb_eq : ∃ x y, s.lodsb = { s.withEax x with esi := y } ∧
    x = setByte0 s.core.eax (s.core.mem (s.address (low s.esi))) ∧
    y = setLow s.esi (if s.core.df then low s.esi - 1 else low s.esi + 1) := ⟨_, _, rfl, rfl, rfl⟩

theorem push_eq : ∃ m x, s.push v = { s.withMem m with esp := x } ∧
    m = write s.core.mem (16 * s.ss.toNat + (low s.esp - 2).toNat) (dw v) ∧ x = setLow s.esp (low s.esp - 2) :=
  ⟨_, _, rfl, rfl, rfl⟩

theorem pop_eq : ∃ x, s.pop = { s with esp := x } ∧ x = setLow s.esp (low s.esp + 2) := ⟨_, rfl, rfl⟩

/-- The registers in front of a request to the disk. -/
theorem request_spec : Kept (fun _ => False) s { s.withEax x with edx := y, esi := z } ∧
    { s.withEax x with edx := y, esi := z }.core.eax = x ∧ { s.withEax x with edx := y, esi := z }.edx = y ∧
    { s.withEax x with edx := y, esi := z }.esi = z ∧ { s.withEax x with edx := y, esi := z }.tty = s.tty :=
  ⟨⟨rfl, rfl, rfl, rfl, rfl, rfl, fun _ _ _ _ => rfl⟩, rfl, rfl, rfl, rfl⟩

/-- The registers in front of a call of `print_string`. -/
theorem setEsi_spec : Kept (fun _ => False) s { s with esi := x } ∧ { s with esi := x }.esi = x ∧
    { s with esi := x }.tty = s.tty :=
  ⟨⟨rfl, rfl, rfl, rfl, rfl, rfl, fun _ _ _ _ => rfl⟩, rfl, rfl⟩

end Updates

section Call

variable {s t : Loader} (hs : Ready s) (hsp : low s.esp = 0x7C00) (v : UInt16)

include hs hsp

/-- **`call`**: the return address goes below the first stage. -/
theorem push_spec : Ready (s.push v) ∧ (s.push v).esi = s.esi ∧ (s.push v).tty = s.tty ∧
    ∀ x, 0x7E00 ≤ x → (s.push v).core.mem x = s.core.mem x := by
  obtain ⟨m, y, hpush, hm, hy⟩ := push_eq s v
  have htop : 16 * s.ss.toNat + (low s.esp - 2).toNat = 0x7BFE := by
    rw [hs.stack.1, hsp]
    decide
  have hlow : low y = 0x7BFE := by
    rw [hy, low_setLow, hsp]
    decide
  rw [hpush]
  refine ⟨⟨hs.ds, ⟨hs.stack.1, Or.inr hlow⟩, hs.df⟩, rfl, rfl, fun x hx => ?_⟩
  show m x = _
  rw [hm, htop, write_of_apart (Or.inr (show 0x7BFE + 2 ≤ x by omega))]

/-- **`ret`**: what is kept behind `call` has been kept in the end. -/
theorem Kept.call (h : Kept (fun _ => False) (s.push v) t) :
    Kept (fun _ => False) s t.pop ∧ t.pop.tty = t.tty := by
  obtain ⟨m, y, hpush, -, hy⟩ := push_eq s v
  obtain ⟨z, hpop, hz⟩ := pop_eq t
  have hram := (push_spec hs hsp v).2.2.2
  have hback : low s.esp - 2 + 2 = low s.esp := by
    rw [hsp]
    decide
  have hesp : z = s.esp := by
    rw [hz, h.esp, hpush]
    show setLow y (low y + 2) = s.esp
    rw [hy, low_setLow, hback, setLow_setLow]
  rw [hpop]
  rw [hpush] at h hram
  exact ⟨⟨h.ds, h.ss, hesp, h.df, h.control, h.port92,
    fun x h1 h2 hx => (h.ram x h1 h2 hx).trans (hram x h1)⟩, rfl⟩

end Call

/-! ### Messages -/

section Print

variable {b : Bios} {disk : ℕ → Byte} {s : Loader}

/-- One character on the teletype. -/
theorem video_spec (hb : b.Ok disk) (hs : s.LowStack) (hah : byte1 s.core.eax = 0x0E) :
    Kept (fun _ => False) s (video b s) ∧ (video b s).core.eax = s.core.eax ∧ (video b s).esi = s.esi ∧
      (video b s).tty = s.tty ++ [byte0 s.core.eax] := by
  obtain ⟨hkept, heax, hesi, htty⟩ := hb.teletype { s with tty := s.tty ++ [byte0 s.core.eax] } hs hah
  exact ⟨⟨hkept.ds, hkept.ss, hkept.esp, hkept.df, hkept.control, hkept.port92, hkept.ram⟩, heax, hesi, htty⟩

/-- `lodsb` on a text. -/
theorem lodsb_spec {c : Byte} {cs : List Byte} (hs : Ready s)
    (h : Spells s.core.mem (low s.esi).toNat (c :: cs)) (hlt : (low s.esi).toNat + 1 < 2 ^ 16) :
    Kept (fun _ => False) s s.lodsb ∧ byte0 s.lodsb.core.eax = c ∧ byte1 s.lodsb.core.eax = byte1 s.core.eax ∧
      (low s.lodsb.esi).toNat = (low s.esi).toNat + 1 ∧ s.lodsb.tty = s.tty := by
  obtain ⟨x, y, heq, hx, hy⟩ := lodsb_eq s
  have hone : (1 : UInt16).toNat = 1 := rfl
  have hal : byte0 x = c := by rw [hx, byte0_setByte0, hs.address, h.head]
  have hah : byte1 x = byte1 s.core.eax := by rw [hx, byte1_setByte0]
  have hsi : (low y).toNat = (low s.esi).toNat + 1 := by
    rw [hy, low_setLow, hs.df, if_neg Bool.false_ne_true, UInt16.toNat_add, hone, Nat.mod_eq_of_lt hlt]
  rw [heq]
  exact ⟨⟨rfl, rfl, rfl, rfl, rfl, rfl, fun _ _ _ _ => rfl⟩, hal, hah, hsi, rfl⟩

/-- A character with `0x0E` in `ah`. -/
theorem videoEax_spec {x : UInt32} (hb : b.Ok disk) (hs : s.LowStack) (hah : byte1 x = 0x0E) :
    ∃ t, video b (s.withEax x) = t ∧ Kept (fun _ => False) s t ∧ t.esi = s.esi ∧ t.tty = s.tty ++ [byte0 x] ∧
      byte1 t.core.eax = 0x0E := by
  have hkept := withEax_kept s x
  obtain ⟨hkept', heax, hesi, htty⟩ := video_spec hb (hkept.lowStack hs) (by rw [withEax_eax, hah])
  rw [withEax_eax] at heax htty
  exact ⟨_, rfl, hkept.trans_all hkept', hesi, htty, by rw [heax, hah]⟩

/-- **The loop of `print_string`** ends at the zero byte. -/
theorem printLoop_spec (hb : b.Ok disk) {cs : List Byte} (h0 : (0 : Byte) ∉ cs) {n : ℕ} (hn : cs.length < n)
    (hs : Ready s) (htext : Spells s.core.mem (low s.esi).toNat (cs ++ [0])) (hlo : 0x7E00 ≤ (low s.esi).toNat)
    (hhi : (low s.esi).toNat + cs.length + 1 < 2 ^ 16) :
    ∃ t, printLoop b n s = .ok t ∧ Kept (fun _ => False) s t ∧ t.tty = s.tty ++ cs ∧
      (cs ≠ [] ∨ byte1 s.core.eax = 0x0E → byte1 t.core.eax = 0x0E) := by
  obtain ⟨n, rfl⟩ : ∃ k, n = k + 1 := ⟨n - 1, by omega⟩
  induction cs generalizing s n with
  | nil =>
    obtain ⟨hkept, hal, hah, -, htty⟩ := lodsb_spec hs htext hhi
    refine ⟨s.lodsb, ?_, hkept, by rw [htty, List.append_nil], fun h => ?_⟩
    · rw [printLoop]
      exact if_pos hal
    · rw [hah]
      exact h.resolve_left fun hne => hne rfl
  | cons c cs ih =>
    rw [List.length_cons] at hn hhi
    obtain ⟨n, rfl⟩ : ∃ k, n = k + 1 := ⟨n - 1, by omega⟩
    obtain ⟨hkept₁, hal, -, hsi, htty₁⟩ := lodsb_spec hs htext (by omega)
    have hc : byte0 s.lodsb.core.eax ≠ 0 := by
      rw [hal]
      exact fun h => h0 (h ▸ List.mem_cons_self)
    obtain ⟨v, hv, hkept₂, hesi, htty₂, hah⟩ :=
      videoEax_spec hb (hkept₁.lowStack hs.stack) (byte1_setByte1 s.lodsb.core.eax 0x0E)
    rw [byte0_setByte1, hal, htty₁] at htty₂
    have hkept := hkept₁.trans_all hkept₂
    have htail : Spells v.core.mem (low v.esi).toNat (cs ++ [0]) := by
      rw [hesi, hsi]
      refine Spells.congr htext.tail fun x h1 h2 => hkept.ram x (by omega) ?_ id
      rw [List.length_append, List.length_singleton] at h2
      omega
    obtain ⟨t, ht, hkept', htty', hah'⟩ := ih (fun h => h0 (List.mem_cons_of_mem c h)) (hkept.ready hs) htail
      (by rw [hesi]; omega) (by rw [hesi]; omega) n (by omega)
    refine ⟨t, ?_, hkept.trans_all hkept', ?_, fun _ => hah' (Or.inr hah)⟩
    · rw [printLoop]
      refine (if_neg hc).trans ?_
      rw [hv, ht]
    · rw [htty', htty₂, List.append_assoc]
      rfl

/-- **`print_string`** on one of the messages. -/
theorem printString_spec (hb : b.Ok disk) (hs : Ready s) (hsp : low s.esp = 0x7C00) (text : Label)
    (cs : List Byte) (hbytes : text.bytes = cs ++ [0]) (h0 : (0 : Byte) ∉ cs) (hne : cs ≠ [])
    (htext : Spells s.core.mem text.address.toNat text.bytes) (hlo : 0x7E00 ≤ text.address.toNat)
    (hhi : text.address.toNat + cs.length + 1 < 2 ^ 16) (behind : UInt16) :
    ∃ t, printString b text behind s = .ok t ∧ Kept (fun _ => False) s t ∧
      t.tty = s.tty ++ (cs ++ [13, 10]) := by
  obtain ⟨hkept, hesi, htty⟩ := setEsi_spec s (setLow s.esi text.address)
  have hsi : low { s with esi := setLow s.esi text.address }.esi = text.address := by rw [hesi, low_setLow]
  rw [printString]
  -- the state in front of the `call`
  generalize ({ s with esi := setLow s.esi text.address } : Loader) = u at hkept hsi htty ⊢
  have hu := hkept.ready hs
  have husp : low u.esp = 0x7C00 := by rw [hkept.esp, hsp]
  obtain ⟨hready, hpsi, hptty, hpmem⟩ := push_spec hu husp behind
  have htext' : Spells (u.push behind).core.mem (low (u.push behind).esi).toNat (cs ++ [0]) := by
    rw [hpsi, hsi, ← hbytes]
    refine htext.congr fun x h1 h2 => ?_
    rw [hbytes, List.length_append, List.length_singleton] at h2
    rw [hpmem x (by omega), hkept.ram x (by omega) (by omega) id]
  obtain ⟨t₁, ht₁, hkept₁, htty₁, hah⟩ := printLoop_spec hb h0 (n := 2 ^ 16) (by omega) hready htext'
    (by rw [hpsi, hsi]; exact hlo) (by rw [hpsi, hsi]; exact hhi)
  have hah₁ := hah (Or.inl hne)
  have hstack := hkept₁.lowStack hready.stack
  -- the line end
  obtain ⟨t₂, ht₂, hkept₂, -, htty₂, hah₂⟩ :=
    videoEax_spec hb hstack ((byte1_setByte0 t₁.core.eax 13).trans hah₁)
  obtain ⟨t₃, ht₃, hkept₃, -, htty₃, -⟩ :=
    videoEax_spec hb (hkept₂.lowStack hstack) ((byte1_setByte0 t₂.core.eax 10).trans hah₂)
  obtain ⟨hcall, hend⟩ := ((hkept₁.trans_all hkept₂).trans_all hkept₃).call hu husp
  refine ⟨t₃.pop, ?_, hkept.trans_all hcall, ?_⟩
  · rw [ht₁]
    show Except.ok (Loader.pop _) = _
    rw [ht₂, ht₃]
  · rw [hend, htty₃, htty₂, htty₁, hptty, htty, byte0_setByte0, byte0_setByte0, List.append_assoc,
      List.append_assoc]
    rfl

end Print

/-! ### The disk read -/

/-- The second stage with its data in the memory; `ss` and `sp` are set by the first stage, `ds` and the
direction flag by neither. -/
structure AtStart (s : Loader) : Prop where
  image : Image s.core.mem
  ds : s.ds = 0
  ss : s.ss = 0
  sp : low s.esp = 0x7C00
  df : s.core.df = false
  pe : s.control.pe = false
  pg : s.control.pg = false
  la57 : s.control.la57 = false

theorem AtStart.ready {s : Loader} (h : AtStart s) : Ready s := ⟨h.ds, ⟨h.ss, Or.inl h.sp⟩, h.df⟩

/-- The buffer of the disk read. -/
def ReadBuffer (x : ℕ) : Prop := 0x10000 ≤ x ∧ x < 0x10000 + 512 * 32

/-- The data of the second stage are below the buffer. -/
theorem Kept.label {s t : Loader} (h : Kept ReadBuffer s t) (hs : Image s.core.mem) (l : Label) :
    Spells t.core.mem l.address.toNat l.bytes := by
  have hplace : 0x7E00 ≤ l.address.toNat ∧ l.address.toNat + l.bytes.length ≤ 0x7EB6 := by
    cases l <;> decide
  exact (hs l).congr fun x h1 h2 => h.ram x (by omega) (by omega) fun hx => by
    have := hx.1
    omega

section Disk

variable {b : Bios} {disk : ℕ → Byte} {s : Loader}

/-- **The first message and the disk read.** -/
theorem readKernel_spec (hb : b.Ok disk) (hs : AtStart s) :
    ∃ t, readKernel b s = .ok t ∧
      (t.cf = false → Kept ReadBuffer s t ∧ t.tty = s.tty ++ (stage2LoadedMsg ++ [13, 10]) ∧
        ∀ i < 512 * 32, t.core.mem (0x10000 + i) = disk (512 * 2048 + i)) := by
  obtain ⟨u, hu, hkept, htty⟩ := printString_spec hb hs.ready hs.sp .stage2LoadedMsg stage2LoadedMsg rfl
    (by decide) (by decide) (hs.image _) (by decide) (by decide) 0x7E06
  obtain ⟨hkept', heax, hedx, hesi, htty'⟩ :=
    request_spec u (setByte1 u.core.eax 0x42) (setByte0 u.edx 0x80) (setLow u.esi Label.dap.address)
  rw [readKernel, hu]
  show ∃ t, Except.ok (b.int13 _) = .ok t ∧ _
  -- the state in front of the interrupt
  generalize ({ u.withEax (setByte1 u.core.eax 0x42) with
    edx := setByte0 u.edx 0x80, esi := setLow u.esi Label.dap.address } : Loader) = v
    at hkept' heax hedx hesi htty' ⊢
  have hkeptv := hkept.trans_all hkept'
  have haddr : v.address (low v.esi) = Label.dap.address.toNat := by
    rw [(hkeptv.ready hs.ready).address, hesi, low_setLow]
  have hdap : Spells v.core.mem Label.dap.address.toNat dap :=
    (hkeptv.mono fun _ h => h.elim).label hs.image .dap
  have hpacket : v.packet = ⟨32, 0x10000, 2048⟩ := by
    rw [Loader.packet, haddr, packetAt_dap hdap]
  refine ⟨b.int13 v, rfl, fun hcf => ?_⟩
  obtain ⟨hread, hsame, hbytes⟩ := hb.extendedRead v (hkeptv.lowStack hs.ready.stack)
    (by rw [heax, byte1_setByte1]) (by rw [hedx, byte0_setByte0]) (by rw [haddr, hdap.head])
    (by rw [hpacket]; decide) (by rw [hpacket]; decide) hcf
  rw [hpacket] at hread hbytes
  refine ⟨(hkeptv.trans hread).mono fun x hx => hx.elim False.elim id, ?_, hbytes⟩
  rw [hsame, htty', htty]

end Disk

end FoxOS
