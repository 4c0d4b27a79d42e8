import FoxOS.Boot.Paging
import FoxOS.CString
import FoxOS.Lib.LongMode

/-!
# FoxOS.Boot.Stage2 — the second stage of the boot loader (`src/stage2.asm`)

The second stage reads the kernel from the disk, switches to protected mode, clears the screen, copies the
kernel to 1 MiB, builds the page tables (`FoxOS.Boot.Paging`), switches to long mode, shows the first bytes of
the kernel and jumps to it.  Its messages, the disk packet and the descriptor table stand in the memory, at the
addresses that the assembler gives them (`Image`).  The far jumps and segment loads read the descriptors there
and mark them as accessed; in long mode every access goes through the page tables, and marks them too.  The code
is not read from the memory.

The BIOS services are a parameter: `Bios.Ok` says what the code takes for granted of them.
-/

namespace FoxOS

open ByteMem PageWalk LongMode

/-! ### Data -/

def dw (x : UInt16) : List Byte := [UInt8.ofNat x.toNat, UInt8.ofNat (x.toNat / 2 ^ 8)]

def dd (x : UInt32) : List Byte := dw (UInt16.ofNat x.toNat) ++ dw (UInt16.ofNat (x.toNat / 2 ^ 16))

def dq (x : UInt64) : List Byte := dd (UInt32.ofNat x.toNat) ++ dd (UInt32.ofNat (x.toNat / 2 ^ 32))

/-- The addresses of the labels; 72 bytes of code stand in front of the first one, and `align 4` in front of
`dap`. -/
inductive Label
  | stage2LoadedMsg | kernelLoadedMsg | dap | gdt | gdtDescriptor

def Label.address : Label → UInt16
  | .stage2LoadedMsg => 0x7E48
  | .kernelLoadedMsg => 0x7E58
  | .dap => 0x7E80
  | .gdt => 0x7E90
  | .gdtDescriptor => 0x7EB0

def stage2LoadedMsg : List Byte := str "Stage 2 loaded!"

def kernelLoadedMsg : List Byte := str "Kernel loaded!"

/-- The disk address packet: its size, 32 sectors to `0x1000:0x0000`, from sector 2048 on. -/
def dap : List Byte := [0x10, 0] ++ dw 32 ++ dw 0x0000 ++ dw 0x1000 ++ dq 2048

def descriptor (limit base : UInt16) (baseMid access flags baseHigh : Byte) : List Byte :=
  dw limit ++ dw base ++ [baseMid, access, flags, baseHigh]

/-- The descriptor table: null, 32-bit code, data, 64-bit code. -/
def gdt : List Byte :=
  dq 0 ++ descriptor 0xFFFF 0x0000 0x00 0b10011010 0b11001111 0x00 ++
    descriptor 0xFFFF 0x0000 0x00 0b10010010 0b11001111 0x00 ++
    descriptor 0x0000 0x0000 0x00 0b10011010 0b10101111 0x00

def gdtDescriptor : List Byte := dw (UInt16.ofNat (gdt.length - 1)) ++ dd (UInt32.ofNat Label.gdt.address.toNat)

/-- The bytes at the labels. -/
def Label.bytes : Label → List Byte
  | .stage2LoadedMsg => FoxOS.stage2LoadedMsg ++ [0]
  | .kernelLoadedMsg => FoxOS.kernelLoadedMsg ++ [0]
  | .dap => FoxOS.dap
  | .gdt => FoxOS.gdt
  | .gdtDescriptor => FoxOS.gdtDescriptor

/-- The data of the second stage stand in the memory. -/
def Image (m : Mem) : Prop := ∀ l : Label, Spells m l.address.toNat l.bytes

/-! ### Registers -/

/-- `al`, `dl`. -/
def byte0 (x : UInt32) : Byte := UInt8.ofNat x.toNat

/-- `ah`. -/
def byte1 (x : UInt32) : Byte := UInt8.ofNat (x.toNat / 2 ^ 8)

/-- `si`, `sp`. -/
def low (x : UInt32) : UInt16 := UInt16.ofNat x.toNat

def setByte0 (x : UInt32) (b : Byte) : UInt32 := UInt32.ofNat (x.toNat / 2 ^ 8 * 2 ^ 8 + b.toNat)

def setByte1 (x : UInt32) (b : Byte) : UInt32 :=
  UInt32.ofNat (x.toNat / 2 ^ 16 * 2 ^ 16 + b.toNat * 2 ^ 8 + x.toNat % 2 ^ 8)

def setLow (x : UInt32) (v : UInt16) : UInt32 := UInt32.ofNat (x.toNat / 2 ^ 16 * 2 ^ 16 + v.toNat)

/-- The machine in the 16-bit and the 32-bit part; `tty` are the characters handed to `int 0x10`. -/
structure Loader where
  core : Machine
  edx : UInt32
  esi : UInt32
  esp : UInt32
  ds : UInt16
  ss : UInt16
  cf : Bool
  gdtr : Gdtr
  control : Control
  port92 : UInt8
  mode : Mode
  tty : List Byte

namespace Loader

def withMem (s : Loader) (m : Mem) : Loader := { s with core := { s.core with mem := m } }

def withEax (s : Loader) (x : UInt32) : Loader := { s with core := { s.core with eax := x } }

/-- The address of an offset in the data segment, in real mode. -/
def address (s : Loader) (offset : UInt16) : ℕ := 16 * s.ds.toNat + offset.toNat

/-- `lodsb`. -/
def lodsb (s : Loader) : Loader :=
  { s.withEax (setByte0 s.core.eax (s.core.mem (s.address (low s.esi)))) with
    esi := setLow s.esi (if s.core.df then low s.esi - 1 else low s.esi + 1) }

/-- `call` leaves the address behind it on the stack. -/
def push (s : Loader) (v : UInt16) : Loader :=
  { s.withMem (write s.core.mem (16 * s.ss.toNat + (low s.esp - 2).toNat) (dw v)) with
    esp := setLow s.esp (low s.esp - 2) }

/-- `ret`. -/
def pop (s : Loader) : Loader := { s with esp := setLow s.esp (low s.esp + 2) }

end Loader

/-! ### The BIOS -/

/-- What the two interrupts do to the machine.  Every call finds another `tty`, so that no two have to answer
alike. -/
structure Bios where
  int10 : Loader → Loader
  int13 : Loader → Loader

/-- What a disk packet asks for. -/
structure Packet where
  sectors : ℕ
  buffer : ℕ
  lba : ℕ

def packetAt (m : Mem) (a : ℕ) : Packet :=
  ⟨load16 m (a + 2), load16 m (a + 4) + 16 * load16 m (a + 6), load64 m (a + 8)⟩

/-- The address is in the buffer of the packet. -/
def Packet.Covers (p : Packet) (x : ℕ) : Prop := p.buffer ≤ x ∧ x < p.buffer + 512 * p.sectors

/-- The packet that `ds:si` points to. -/
def Loader.packet (s : Loader) : Packet := packetAt s.core.mem (s.address (low s.esi))

/-- The registers are kept, and the memory between the first stage and the data of the BIOS but for `P`. -/
structure Kept (P : ℕ → Prop) (s t : Loader) : Prop where
  ds : t.ds = s.ds
  ss : t.ss = s.ss
  esp : t.esp = s.esp
  df : t.core.df = s.core.df
  control : t.control = s.control
  port92 : t.port92 = s.port92
  ram : ∀ x, 0x7E00 ≤ x → x < 0x80000 → ¬ P x → t.core.mem x = s.core.mem x

/-- The stack of the first stage, with at most one word on it. -/
def Loader.LowStack (s : Loader) : Prop := s.ss = 0 ∧ (low s.esp = 0x7C00 ∨ low s.esp = 0x7BFE)

/-- **What the code takes for granted of the BIOS**: the teletype output keeps the registers and the memory; so
does a read of the first hard disk into that memory that reports no error, but for the buffer, which then holds
the sectors. -/
structure Bios.Ok (b : Bios) (disk : ℕ → Byte) : Prop where
  teletype : ∀ s, s.LowStack → byte1 s.core.eax = 0x0E → Kept (fun _ => False) s (b.int10 s) ∧
    (b.int10 s).core.eax = s.core.eax ∧ (b.int10 s).esi = s.esi ∧ (b.int10 s).tty = s.tty
  extendedRead : ∀ s, s.LowStack → byte1 s.core.eax = 0x42 → byte0 s.edx = 0x80 →
    s.core.mem (s.address (low s.esi)) = 0x10 →
    0x7E00 ≤ s.packet.buffer → s.packet.buffer + 512 * s.packet.sectors ≤ 0x80000 → (b.int13 s).cf = false →
      Kept s.packet.Covers s (b.int13 s) ∧ (b.int13 s).tty = s.tty ∧
        ∀ i < 512 * s.packet.sectors,
          (b.int13 s).core.mem (s.packet.buffer + i) = disk (512 * s.packet.lba + i)

/-! ### Real mode -/

/-- How the second stage can end without the jump to the kernel. -/
inductive Stop
  /-- `print_string` finds no end of its text -/
  | endless
  /-- at the label `disk_error`: the code there is assembled for 32 bits, and reached in 16-bit mode -/
  | diskError (s : Loader)
  /-- the processor refuses an instruction -/
  | fault
  /-- the code runs into the padding behind it -/
  | astray
  /-- segments that are not flat, code of another size, five levels of page tables -/
  | outside

def orFault {α : Type} (x : Option α) : Except Stop α := x.elim (.error .fault) .ok

/-- `int 0x10`, with the character for it in `al`. -/
def video (b : Bios) (s : Loader) : Loader := b.int10 { s with tty := s.tty ++ [byte0 s.core.eax] }

/-- The loop of `print_string`, for `n` rounds. -/
def printLoop (b : Bios) : ℕ → Loader → Except Stop Loader
  | 0, _ => .error .endless
  | n + 1, s =>
    let s := s.lodsb
    if byte0 s.core.eax = 0 then .ok s else printLoop b n (video b (s.withEax (setByte1 s.core.eax 0x0E)))

/-- `mov si, …`, `call print_string`: the text and a line end.  A text has at most `2 ^ 16` bytes. -/
def printString (b : Bios) (text : Label) (behind : UInt16) (s : Loader) : Except Stop Loader :=
  (printLoop b (2 ^ 16) (Loader.push { s with esi := setLow s.esi text.address } behind)).bind fun s =>
    let s := video b (s.withEax (setByte0 s.core.eax 13))
    let s := video b (s.withEax (setByte0 s.core.eax 10))
    .ok s.pop

/-- The first message and the disk read. -/
def readKernel (b : Bios) (s : Loader) : Except Stop Loader :=
  (printString b .stage2LoadedMsg 0x7E06 s).bind fun s =>
    .ok (b.int13 { s.withEax (setByte1 s.core.eax 0x42) with
      edx := setByte0 s.edx 0x80, esi := setLow s.esi Label.dap.address })

/-- `lgdt`: 24 bits of the base in 16-bit code. -/
def loadGdtr (s : Loader) : Gdtr :=
  ⟨load16 s.core.mem (s.address Label.gdtDescriptor.address),
    load32 s.core.mem (s.address Label.gdtDescriptor.address + 2) % 2 ^ 24⟩

/-- A far jump to code of the size `mode`. -/
def jump (ac : Access) (selector : ℕ) (mode : Mode) (s : Loader) : Except Stop Loader :=
  (orFault (farJump ac s.gdtr s.control.lma selector s.core.mem)).bind fun p =>
    if p.1.codeMode s.control.lma = some mode ∧ (mode = .bits64 ∨ p.1.isFlat = true) then
      .ok { s.withMem p.2 with mode := mode }
    else .error .outside

/-- The five segment registers. -/
def loadSegments (ac : Access) (s : Loader) : Except Stop Loader :=
  (orFault (loadData ac s.gdtr 0x10 s.core.mem)).bind fun p =>
    if s.mode = .bits64 ∨ p.1.isFlat = true then .ok (s.withMem p.2) else .error .outside

/-- The descriptor table, the A20 gate, the protection bit, the jump. -/
def enterProtected (s : Loader) : Except Stop Loader :=
  let s := { s with gdtr := loadGdtr s, port92 := s.port92 ||| 2 }
  (orFault (s.control.writeCr0 (s.control.cr0 ||| 1))).bind fun c => jump .flat 0x08 .bits32
    { s with control := c }

/-! ### Protected mode -/

/-- `movsd`: copy a word from `esi` to `edi` and step by the direction flag. -/
def movsd (s : Loader) : Loader :=
  { s with
    core := { s.core with
      mem := store32 s.core.mem s.core.edi.toNat (UInt32.ofNat (load32 s.core.mem s.esi.toNat))
      edi := if s.core.df then s.core.edi - 4 else s.core.edi + 4 }
    esi := if s.core.df then s.esi - 4 else s.esi + 4 }

/-- One round of `rep movsd`. -/
def movsdRound (s : Loader) : Loader := { movsd s with core := { (movsd s).core with ecx := s.core.ecx - 1 } }

/-- `rep movsd`. -/
def repMovsd (s : Loader) : Loader :=
  if s.core.ecx = 0 then s else repMovsd (movsdRound s)
termination_by s.core.ecx.toNat
decreasing_by exact pred_lt ‹_›

/-- `mov byte [a], …` for the bytes from `a` on. -/
def movBytes (a : ℕ) (bs : List Byte) (s : Machine) : Machine := { s with mem := write s.mem a bs }

/-- `rdmsr`, `or eax, 1 << 8`, `wrmsr`: `edx` holds the high half. -/
def orLme (efer : BitVec 64) : BitVec 64 :=
  efer.extractLsb' 32 32 ++ (efer.extractLsb' 0 32 ||| BitVec.twoPow 32 8)

/-- Clear the screen and write `PM` on it. -/
def clearScreen (s : Machine) : Machine :=
  movBytes 0xB8000 [80, 0x4F, 77, 0x4F] (repStosd { s with edi := 0xB8000, eax := 0x07200720, ecx := 2000 })

/-- Copy the kernel to its place. -/
def copyKernel (s : Loader) : Loader :=
  repMovsd { s with esi := 0x10000, core := { s.core with edi := 0x100000, ecx := 8192 } }

def buildLoaderTables (s : Loader) : Loader := { s with core := buildTables s.core }

/-- PAE, LME, paging, the jump. -/
def enterLong (w : PhysWidth) (s : Loader) : Except Stop Loader :=
  (orFault ((s.control.writeCr4 (s.control.cr4 ||| BitVec.twoPow 32 5)).bind fun c =>
    (c.writeEfer (orLme c.efer)).bind fun c => c.writeCr0 (c.cr0 ||| BitVec.twoPow 32 31))).bind fun c =>
      if c.la57 then .error .outside
      else jump (paged w c.wp s.core.cr3.toNat) 0x18 .bits64 { s with control := c }

/-- The label `protected_mode`, up to the far jump. -/
def protectedMode (w : PhysWidth) (s : Loader) : Except Stop Loader :=
  (loadSegments .flat s).bind fun s =>
    enterLong w (buildLoaderTables (copyKernel { s with esp := 0x90000, core := clearScreen s.core }))

/-! ### Long mode -/

theorem pred_lt64 {x : UInt64} (h : x ≠ 0) : (x - 1).toNat < x.toNat := by
  have hpos : x.toNat ≠ 0 := fun h0 => h (UInt64.toNat_inj.mp (by simpa using h0))
  have hle : (1 : UInt64) ≤ x := UInt64.le_iff_toNat_le.mpr (Nat.one_le_iff_ne_zero.mpr hpos)
  have hsub := UInt64.toNat_sub_of_le x 1 hle
  have hone : (1 : UInt64).toNat = 1 := rfl
  omega

/-- `.print_kernel_bytes`. -/
def printKernelBytes (ac : Access) (rcx rsi rdi : UInt64) (m : Mem) : Option Mem :=
  (ac.load rsi.toNat m).bind fun p =>
    (ac.stores rdi.toNat [p.1, 0x0F] p.2).bind fun m =>
      if rcx - 1 = 0 then some m else printKernelBytes ac (rcx - 1) (rsi + 1) (rdi + 2) m
termination_by (rcx - 1).toNat
decreasing_by exact pred_lt64 ‹_›

/-- What the kernel gets. -/
structure Entered where
  rip : ℕ
  mode : Mode
  control : Control
  cr3 : ℕ
  esp : UInt32
  port92 : UInt8
  mem : Mem
  tty : List Byte

/-- The label `long_mode`.  The loop `.delay` is left out: it counts `rcx` down, and `rcx` is set again behind
it. -/
def longMode (w : PhysWidth) (s : Loader) : Except Stop Entered :=
  let ac := paged w s.control.wp s.core.cr3.toNat
  (loadSegments ac s).bind fun s =>
    (orFault (ac.stores 0xB80A0 [54, 0x5F, 52, 0x5F] s.core.mem)).bind fun m =>
      if s.control.lma = false then
        -- the code behind `not_in_long_mode` runs into the padding
        (orFault (ac.stores 0xB80A8 [69, 0x4F, 82, 0x4F] m)).bind fun _ => .error .astray
      else
        (orFault ((ac.stores 0xB8000 [0x78, 0x56, 0x34, 0x12, 0x78, 0x56, 0x34, 0x12] m).bind fun m =>
          (ac.stores 0xB80A4 [76, 0x5F, 77, 0x5F] m).bind fun m =>
            (ac.stores 0xB8140 [74, 0xEF] m).bind fun m =>
              printKernelBytes ac 16 0x100000 0xB8160 m)).bind fun m =>
          .ok ⟨0x100000, s.mode, s.control, s.core.cr3.toNat, s.esp, s.port92, m, s.tty⟩

/-- **The second stage**, up to the jump to the kernel. -/
def stage2 (w : PhysWidth) (b : Bios) (s : Loader) : Except Stop Entered :=
  (readKernel b s).bind fun s =>
    if s.cf then .error (.diskError s)
    else (printString b .kernelLoadedMsg 0x7E19 s).bind fun s =>
      (enterProtected s).bind fun s => (protectedMode w s).bind (longMode w)

end FoxOS
