import FoxOS.Lib.Polled
import FoxOS.Kbd.Keys
import FoxOS.Term.Editor

/-!
# FoxOS.Kernel.Loop — the main loop and the keyboard controller

`_start` from its first call of `keyboard_init` on, step by step, next to a keyboard controller that works on
its own: the keyboard sends bytes, the controller takes them into the register at port `0x60`, the bits of the
status register at port `0x64` change.  An interleaving of the two is a list of `Event`s.

`keyboard_get_scancode` does not look at the bit that says whether the register holds a new byte.
`main_loop_serves`: all the same, no interleaving loses or doubles a byte.  One byte is too many:
`keyboard_init` throws bytes away, but the last one stays in the register, and the first read of the loop may
fetch it (`drained_key_replayed`).  The results speak of the log of all reads of port `0x60` (`reads`), with
their readers; it is taken from the states between the events.
-/

namespace FoxOS

open Mealy Polled Runs

/-! ### The controller -/

/-- The register at port `0x60` with the keyboard behind it, and the other bits of the status register. -/
structure Controller where
  port : Latch Byte
  busy : Bool
  flags : Byte

/-- `inb(0x64)`: bit 0 says that the register holds a new byte, bit 1 that the controller is busy. -/
def Controller.status (c : Controller) : Byte :=
  (c.flags &&& 0xFC) ||| (if c.busy then 2 else 0) ||| (if c.port.full then 1 else 0)

/-- What a read of port `0x60` leaves. -/
def Controller.take (c : Controller) : Controller := { c with port := c.port.take }

theorem status_bits (c : Controller) :
    (c.status &&& 1 ≠ 0 ↔ c.port.full = true) ∧ (c.status &&& 2 ≠ 0 ↔ c.busy = true) := by
  obtain ⟨⟨data, full, queue⟩, busy, flags⟩ := c
  show (((flags &&& 0xFC) ||| (if busy then 2 else 0) ||| (if full then 1 else 0)) &&& 1 ≠ 0 ↔ full = true) ∧
    (((flags &&& 0xFC) ||| (if busy then 2 else 0) ||| (if full then 1 else 0)) &&& 2 ≠ 0 ↔ busy = true)
  revert flags
  refine ByteMem.forall_byte ?_
  revert busy full
  decide +kernel

/-! ### The processor -/

/-- The console at the first call of `keyboard_init`. -/
def greetVga (mem : Int → UInt16) : Vga :=
  let v := vgaInit ⟨mem, 0, 0, 0, 0, 0, []⟩
  let v := vgaPuts (vgaPuts v (str "FoxOS starting... ")) (str "OK\n")
  let v := vgaPuts (vgaPuts v (str "Initializing filesystem... ")) (str "OK\n")
  vgaPuts v (str "Initializing keyboard... ")

/-- The messages between the two calls of `keyboard_init`. -/
def welcomeVga (v : Vga) : Vga :=
  let v := vgaPuts v (str "OK\n")
  let v := vgaPuts v (str "\nWelcome to FoxOS!\n")
  vgaPuts v (str "Type 'help' for list of commands.\n\n")

theorem welcomeVga_greetVga (mem : Int → UInt16) : welcomeVga (greetVga mem) = bootVga mem := rfl

/-- `keyboard_init` is called by `_start` and again by `terminal_init`. -/
inductive Caller
  | start | terminalInit
  deriving DecidableEq

/-- Where the processor is between two accesses to the controller. -/
inductive Cpu
  /-- at the test of `keyboard_init` -/
  | drain (caller : Caller) (v : Vga)
  /-- at the read in its body -/
  | discard (caller : Caller) (v : Vga)
  /-- at the test of `keyboard_wait`, in a call of `terminal_run` -/
  | wait (k : Kbd) (s : Sys)
  /-- at the read in `keyboard_get_scancode` -/
  | fetch (k : Kbd) (s : Sys)

structure Kernel where
  cpu : Cpu
  ctl : Controller

/-- One access to the controller and what the processor does up to the next one. -/
def cpuStep (m : Kernel) : Except Fault Kernel :=
  match m.cpu with
  | .drain caller v =>
    if m.ctl.status &&& 1 ≠ 0 then .ok { m with cpu := .discard caller v }
    else
      match caller with
      | .start => .ok { m with cpu := .drain .terminalInit (welcomeVga v) }
      | .terminalInit =>
        (terminalInit ⟨v, zeroTerm, fsInit zeroFiles⟩).bind fun s => .ok { m with cpu := .wait zeroKbd s }
  | .discard caller v => .ok ⟨.drain caller v, m.ctl.take⟩
  | .wait k s => if m.ctl.status &&& 2 ≠ 0 then .ok m else .ok { m with cpu := .fetch k s }
  | .fetch k s =>
    (terminalRun s (keyboardRead k m.ctl.port.data).2).bind fun s' =>
      .ok ⟨.wait (keyboardRead k m.ctl.port.data).1 s', m.ctl.take⟩

section Step

variable {c : Controller} {caller : Caller} {v : Vga} {k : Kbd} {s : Sys}

theorem cpuStep_drain_full (h : c.port.full = true) :
    cpuStep ⟨.drain caller v, c⟩ = .ok ⟨.discard caller v, c⟩ :=
  if_pos ((status_bits c).1.mpr h)

theorem status_not_full (h : c.port.full = false) : ¬ (c.status &&& 1 ≠ 0) := by
  rw [(status_bits c).1, h]
  exact Bool.false_ne_true

theorem cpuStep_drain_start (h : c.port.full = false) :
    cpuStep ⟨.drain .start v, c⟩ = .ok ⟨.drain .terminalInit (welcomeVga v), c⟩ :=
  if_neg (status_not_full h)

theorem cpuStep_drain_init (h : c.port.full = false) :
    cpuStep ⟨.drain .terminalInit v, c⟩ =
      (terminalInit ⟨v, zeroTerm, fsInit zeroFiles⟩).bind fun s => .ok ⟨.wait zeroKbd s, c⟩ :=
  if_neg (status_not_full h)

theorem cpuStep_wait_busy (h : c.busy = true) : cpuStep ⟨.wait k s, c⟩ = .ok ⟨.wait k s, c⟩ :=
  if_pos ((status_bits c).2.mpr h)

theorem cpuStep_wait (h : c.busy = false) : cpuStep ⟨.wait k s, c⟩ = .ok ⟨.fetch k s, c⟩ := by
  refine if_neg ?_
  rw [(status_bits c).2, h]
  exact Bool.false_ne_true

theorem cpuStep_fetch : cpuStep ⟨.fetch k s, c⟩ =
    (terminalRun s (keyboardRead k c.port.data).2).bind fun s' =>
      .ok ⟨.wait (keyboardRead k c.port.data).1 s', c.take⟩ :=
  rfl

end Step

inductive Event
  | cpu
  /-- the keyboard sends a byte -/
  | send (b : Byte)
  /-- the register takes the next byte -/
  | latch
  /-- the other bits of the status register change -/
  | status (busy : Bool) (flags : Byte)

def kernelNext (m : Kernel) : Event → Except Fault Kernel
  | .cpu => cpuStep m
  | .send b => .ok { m with ctl := { m.ctl with port := m.ctl.port.send b } }
  | .latch => .ok { m with ctl := { m.ctl with port := m.ctl.port.latch } }
  | .status busy flags => .ok { m with ctl := { m.ctl with busy := busy, flags := flags } }

/-- The machine at the first call of `keyboard_init`. -/
def boot (mem : Int → UInt16) (c : Controller) : Kernel := ⟨.drain .start (greetVga mem), c⟩

/-- The bytes that the keyboard sends. -/
def sent (es : List Event) : List Byte :=
  es.filterMap fun
    | .send b => some b
    | _ => none

/-- With nothing in the register, the tests of `keyboard_init` lead into the main loop. -/
theorem drained_enters_loop (mem : Int → UInt16) {c : Controller} (h : c.port.full = false) :
    ∃ s₀, start mem = .ok s₀ ∧ Started s₀ ∧
      exec kernelNext ⟨.drain .terminalInit (bootVga mem), c⟩ [.cpu] = .ok ⟨.wait zeroKbd s₀, c⟩ ∧
      exec kernelNext ⟨.drain .start (greetVga mem), c⟩ [.cpu, .cpu] = .ok ⟨.wait zeroKbd s₀, c⟩ := by
  obtain ⟨s₀, hs₀, hst⟩ := start_ok mem
  have hinit : terminalInit ⟨bootVga mem, zeroTerm, fsInit zeroFiles⟩ = .ok s₀ := hs₀
  have hlast : cpuStep ⟨.drain .terminalInit (bootVga mem), c⟩ = .ok ⟨.wait zeroKbd s₀, c⟩ := by
    rw [cpuStep_drain_init h, hinit]
    rfl
  have hfirst : cpuStep ⟨.drain .start (greetVga mem), c⟩ = .ok ⟨.drain .terminalInit (bootVga mem), c⟩ := by
    rw [cpuStep_drain_start h, welcomeVga_greetVga]
  refine ⟨s₀, hs₀, hst, ?_, exec_cons_eq_ok.mpr ⟨_, hfirst, ?_⟩⟩
  · rw [exec_singleton]
    exact hlast
  · rw [exec_singleton]
    exact hlast

/-- The state after a command: the line is empty and the prompt printed. -/
def Sys.prompt (s : Sys) : Sys :=
  { s with term := clearBuffer s.term, vga := putChars s.vga terminalPrompt }

theorem terminalRun_newline (s : Sys) : terminalRun s newline =
    (executeCommand (s.withVga (vgaPutchar s.vga newline))).bind fun s => .ok s.prompt := by
  have hprompt : (fun s : Sys => Sys.printf { s with term := clearBuffer s.term } terminalPrompt []) =
      fun s => .ok s.prompt := funext fun s => printf_prompt { s with term := clearBuffer s.term }
  unfold terminalRun
  rw [if_neg (by decide), if_neg (by decide), if_neg (by decide), if_neg (by decide), if_pos rfl, hprompt]

/-- With the line empty no key faults, Enter included. -/
theorem Started.run_ok {s : Sys} (h : Started s) (c : Byte) : ∃ s', terminalRun s c = .ok s' := by
  have hline := h.lineInv
  by_cases hc : c = newline
  · have hempty := Editing.executeCommand (s := s.withVga (vgaPutchar s.vga newline)) hline.editing
    rw [if_pos (show (Zipper.empty : Zipper Byte).toList = [] from rfl)] at hempty
    rw [hc, terminalRun_newline, hempty]
    exact ⟨_, rfl⟩
  · exact (hline.no_fault c).2 hc

/-! ### The reads of port `0x60` -/

/-- The two places in the code that read the register. -/
inductive Reader
  | keyboardInit | getScancode
  deriving DecidableEq

structure PortRead where
  reader : Reader
  read : Read Byte
  deriving DecidableEq

/-- The read in an event, if there is one. -/
def portRead (m : Kernel) : Event → List PortRead
  | .cpu =>
    match m.cpu with
    | .discard _ _ => [⟨.keyboardInit, m.ctl.port.look⟩]
    | .fetch _ _ => [⟨.getScancode, m.ctl.port.look⟩]
    | _ => []
  | _ => []

/-- All reads of a run, in their order. -/
def reads (m : Kernel) (es : List Event) : List PortRead := trace kernelNext portRead m es

def readsBy (r : Reader) (log : List PortRead) : List (Read Byte) :=
  (log.filter fun p => decide (p.reader = r)).map (·.read)

/-- The bytes that `keyboard_init` throws away. -/
def discarded (log : List PortRead) : List Byte := (readsBy .keyboardInit log).map (·.value)

/-- The reads of the main loop. -/
def fetches (log : List PortRead) : List (Read Byte) := readsBy .getScancode log

section Log

variable {log log' : List PortRead}

theorem readsBy_append (r : Reader) (log log' : List PortRead) :
    readsBy r (log ++ log') = readsBy r log ++ readsBy r log' := by
  rw [readsBy, List.filter_append, List.map_append]
  rfl

theorem readsBy_other {r r' : Reader} (hne : r ≠ r') (h : ∀ p ∈ log, p.reader = r) : readsBy r' log = [] := by
  have hnone : log.filter (fun p => decide (p.reader = r')) = [] := by
    refine List.filter_eq_nil_iff.mpr fun p hp => ?_
    rw [h p hp, decide_eq_true_eq]
    exact hne
  rw [readsBy, hnone]
  rfl

/-- Reads by `keyboard_init`, of new bytes. -/
def Draining (log : List PortRead) : Prop := ∀ p ∈ log, p.reader = .keyboardInit ∧ p.read.new = true

/-- Reads by the loop. -/
def Looping (log : List PortRead) : Prop := ∀ p ∈ log, p.reader = .getScancode

theorem Draining.fetches_eq (h : Draining log) : fetches log = [] :=
  readsBy_other (by decide) fun p hp => (h p hp).1

theorem Draining.fresh_eq (h : Draining log) : fresh (readsBy .keyboardInit log) = discarded log := by
  have hnew : ∀ r ∈ readsBy .keyboardInit log, r.new = true := by
    intro r hr
    obtain ⟨p, hp, rfl⟩ := List.mem_map.mp hr
    exact (h p (List.mem_of_mem_filter hp)).2
  rw [fresh, List.filter_eq_self.mpr hnew]
  rfl

theorem Looping.discarded_eq (h : Looping log) : discarded log = [] := by
  rw [discarded, readsBy_other (by decide) h]
  rfl

/-- The log of a boot: what was thrown away, and what the loop has read. -/
theorem split_log (h : Draining log) (h' : Looping log') :
    discarded (log ++ log') = discarded log ∧ fetches (log ++ log') = fetches log' := by
  constructor
  · rw [discarded, readsBy_append, List.map_append, ← discarded, ← discarded, h'.discarded_eq, List.append_nil]
  · rw [fetches, readsBy_append, ← fetches, ← fetches, h.fetches_eq, List.nil_append]

end Log

/-- On the way into the loop nothing is read. -/
theorem drained_reads_nothing (mem : Int → UInt16) {c : Controller} (h : c.port.full = false) :
    reads ⟨.drain .start (greetVga mem), c⟩ [.cpu, .cpu] = [] := by
  have htest : kernelNext ⟨.drain .start (greetVga mem), c⟩ .cpu =
      .ok ⟨.drain .terminalInit (welcomeVga (greetVga mem)), c⟩ := cpuStep_drain_start h
  rw [reads, trace_cons_ok htest, trace_singleton]
  rfl

/-! ### What the loop has served -/

/-- Driver and shell have processed the bytes `bytes`, from the states `k₀` and `s₀` on. -/
structure Processed (k₀ : Kbd) (s₀ : Sys) (bytes : List Byte) (k : Kbd) (s : Sys) : Prop where
  driver : k = after keyboardRead k₀ bytes
  shell : exec terminalRun s₀ (outputs keyboardRead k₀ bytes) = .ok s

theorem terminalRun_zero (s : Sys) : terminalRun s 0 = .ok s := by
  unfold terminalRun
  exact if_pos rfl

section Processed

variable {k₀ k : Kbd} {s₀ s s' : Sys} {bytes : List Byte} {d : Byte} {c : Latch Byte} {rs : List (Read Byte)}

theorem Processed.nil (k₀ : Kbd) (s₀ : Sys) : Processed k₀ s₀ [] k₀ s₀ := ⟨rfl, rfl⟩

theorem Processed.snoc {b : Byte} (h : Processed k₀ s₀ bytes k s)
    (hs : terminalRun s (keyboardRead k b).2 = .ok s') :
    Processed k₀ s₀ (bytes ++ [b]) (keyboardRead k b).1 s' := by
  obtain ⟨rfl, hrun⟩ := h
  refine ⟨by rw [after_append]; rfl, ?_⟩
  rw [outputs_append]
  exact exec_snoc_eq_ok.mpr ⟨s, hrun, hs⟩

/-- **One read of the loop**, with the register as it is. -/
theorem Processed.fetch (h : Processed k₀ s₀ (seen rs) k s) (hf : Follows d c rs)
    (hs : terminalRun s (keyboardRead k c.data).2 = .ok s') :
    Processed k₀ s₀ (seen (rs ++ [c.look])) (keyboardRead k c.data).1 s' := by
  rcases hf.read keyboardRead_settles k₀ with hnew | ⟨hold, hsame⟩
  · rw [hnew]
    exact h.snoc hs
  · rw [← h.driver] at hsame
    rw [hsame] at hs ⊢
    cases (terminalRun_zero s).symm.trans hs
    rw [hold]
    exact h

/-- A read on which the shell faults: the byte is new to the driver. -/
theorem Processed.fault {e : Fault} (h : Processed k₀ s₀ (seen rs) k s) (hf : Follows d c rs)
    (hs : terminalRun s (keyboardRead k c.data).2 = .error e) :
    exec terminalRun s₀ (outputs keyboardRead k₀ (seen (rs ++ [c.look]))) = .error e := by
  rcases hf.read keyboardRead_settles k₀ with hnew | ⟨-, hsame⟩
  · rw [hnew, outputs_append, exec_append, h.shell, ← h.driver]
    show exec terminalRun s [(keyboardRead k c.data).2] = .error e
    rw [exec_singleton, hs]
  · rw [← h.driver] at hsame
    rw [hsame, terminalRun_zero] at hs
    cases hs

end Processed

/-- The processor is in the main loop, with this state of the driver and of the shell. -/
def Cpu.InLoop (cpu : Cpu) (k : Kbd) (s : Sys) : Prop := cpu = .wait k s ∨ cpu = .fetch k s

theorem Cpu.InLoop.unique {cpu : Cpu} {k k' : Kbd} {s s' : Sys} (h : cpu.InLoop k s) (h' : cpu.InLoop k' s') :
    k = k' ∧ s = s' := by
  rcases h with rfl | rfl <;> rcases h' with h' | h' <;> cases h' <;> exact ⟨rfl, rfl⟩

/-- **Invariant of the main loop**, entered with the states `k₀` and `s₀` and the byte `d` in the register,
after the reads `log`: of `bytes`, those that are no longer there were read as new ones. -/
structure Serving (k₀ : Kbd) (s₀ : Sys) (d : Byte) (bytes : List Byte) (log : List PortRead) (m : Kernel) :
    Prop where
  looping : Looping log
  bytes_eq : fresh (fetches log) ++ m.ctl.port.unread = bytes
  follows : Follows d m.ctl.port (fetches log)
  state : ∃ k s, m.cpu.InLoop k s ∧ Processed k₀ s₀ (seen (fetches log)) k s

/-- The loop has run into a fault of the shell, with its last read at the end of `log`. -/
structure Faulted (k₀ : Kbd) (s₀ : Sys) (d : Byte) (bytes : List Byte) (log : List PortRead) (e : Fault) :
    Prop where
  looping : Looping log
  bytes_eq : fresh (fetches log) <+: bytes
  replay : ∀ r, (fetches log).head? = some r → r.new = false → r.value = d
  shell : exec terminalRun s₀ (outputs keyboardRead k₀ (seen (fetches log))) = .error e

/-- **Invariant of the machine**: `bytes` are the bytes there were at the start and those sent since.  While the
buffer is drained, the bytes that are no longer there were thrown away. -/
inductive Serves (mem : Int → UInt16) (first : Byte) (bytes : List Byte) (log : List PortRead) (m : Kernel) :
    Prop
  | drain {caller : Caller} {v : Vga}
      (hcpu : m.cpu = .drain caller v ∨ m.cpu = .discard caller v ∧ m.ctl.port.full = true)
      (hv : v = if caller = .start then greetVga mem else bootVga mem) (hlog : Draining log)
      (hbytes : discarded log ++ m.ctl.port.unread = bytes)
      (hf : Follows first m.ctl.port (readsBy .keyboardInit log))
  | loop {s₀ : Sys} {init rest : List PortRead} {later : List Byte} (hs₀ : start mem = .ok s₀)
      (hlog : log = init ++ rest) (hinit : Draining init) (hbytes : discarded init ++ later = bytes)
      (h : Serving zeroKbd s₀ ((discarded init).getLastD first) later rest m)

/-- Nothing is lost or read in an event of the controller. -/
structure Delivers (c c' : Controller) (new : List Byte) : Prop where
  unread : c'.port.unread = c.port.unread ++ new
  follows : ∀ {d rs}, Follows d c.port rs → Follows d c'.port rs
  full : c.port.full = true → c'.port.full = true

theorem delivers_send (c : Controller) (b : Byte) : Delivers c { c with port := c.port.send b } [b] :=
  ⟨Latch.unread_send, fun hf => hf.send b, id⟩

theorem delivers_latch (c : Controller) : Delivers c { c with port := c.port.latch } [] := by
  refine ⟨by simp, fun hf => hf.latch, fun hfull => ?_⟩
  show c.port.latch.full = true
  rw [Latch.latch, if_pos hfull]
  exact hfull

theorem delivers_status (c : Controller) (busy : Bool) (flags : Byte) :
    Delivers c { c with busy := busy, flags := flags } [] := ⟨(List.append_nil _).symm, id, id⟩

/-- **What an event is**: a step of the processor, or something the controller does, without a read. -/
theorem kernelNext_cases (m : Kernel) (e : Event) :
    (e = .cpu ∧ sent [e] = [] ∧ kernelNext m e = cpuStep m) ∨
    (portRead m e = [] ∧ ∃ c, Delivers m.ctl c (sent [e]) ∧ kernelNext m e = .ok { m with ctl := c }) := by
  cases e with
  | cpu => exact Or.inl ⟨rfl, rfl, rfl⟩
  | send b => exact Or.inr ⟨rfl, _, delivers_send m.ctl b, rfl⟩
  | latch => exact Or.inr ⟨rfl, _, delivers_latch m.ctl, rfl⟩
  | status busy flags => exact Or.inr ⟨rfl, _, delivers_status m.ctl busy flags, rfl⟩

section Loop

variable {k₀ : Kbd} {s₀ : Sys} {d : Byte} {bytes : List Byte} {log : List PortRead} {m m' : Kernel} {e : Event}

theorem Serving.delivers {c : Controller} {new : List Byte} (h : Serving k₀ s₀ d bytes log m)
    (hc : Delivers m.ctl c new) : Serving k₀ s₀ d (bytes ++ new) log { m with ctl := c } :=
  ⟨h.looping, by rw [hc.unread, ← h.bytes_eq, List.append_assoc], hc.follows h.follows, h.state⟩

/-- The reads with one more read of the loop. -/
theorem Serving.looping_snoc (h : Serving k₀ s₀ d bytes log m) (r : Read Byte) :
    Looping (log ++ [⟨.getScancode, r⟩]) ∧ fetches (log ++ [⟨.getScancode, r⟩]) = fetches log ++ [r] := by
  refine ⟨fun p hp => ?_, readsBy_append _ _ _⟩
  rcases List.mem_append.mp hp with hp | hp
  · exact h.looping p hp
  · rw [List.mem_singleton.mp hp]

/-- **One step of the processor** in the main loop. -/
theorem Serving.cpu (h : Serving k₀ s₀ d bytes log m) (hm : cpuStep m = .ok m') :
    Serving k₀ s₀ d bytes (log ++ portRead m .cpu) m' := by
  obtain ⟨cpu, c⟩ := m
  obtain ⟨k, s, rfl | rfl, hp⟩ := h.state
  · rw [show portRead ⟨.wait k s, c⟩ .cpu = [] from rfl, List.append_nil]
    cases hbusy : c.busy with
    | true =>
      rw [cpuStep_wait_busy hbusy] at hm
      cases hm
      exact h
    | false =>
      rw [cpuStep_wait hbusy] at hm
      cases hm
      exact ⟨h.looping, h.bytes_eq, h.follows, k, s, Or.inr rfl, hp⟩
  · obtain ⟨s', hs', h1⟩ := bind_ok_iff.mp hm
    cases h1
    obtain ⟨hloop, hfetch⟩ := h.looping_snoc c.port.look
    refine ⟨hloop, ?_, ?_, _, s', Or.inl rfl, ?_⟩
    · rw [show portRead ⟨.fetch k s, c⟩ .cpu = [⟨.getScancode, c.port.look⟩] from rfl, hfetch, ← h.bytes_eq]
      exact fresh_take _ _
    · rw [show portRead ⟨.fetch k s, c⟩ .cpu = [⟨.getScancode, c.port.look⟩] from rfl, hfetch]
      exact h.follows.take
    · rw [show portRead ⟨.fetch k s, c⟩ .cpu = [⟨.getScancode, c.port.look⟩] from rfl, hfetch]
      exact hp.fetch h.follows hs'

/-- **One event** in the main loop. -/
theorem Serving.step (h : Serving k₀ s₀ d bytes log m) (hm : kernelNext m e = .ok m') :
    Serving k₀ s₀ d (bytes ++ sent [e]) (log ++ portRead m e) m' := by
  rcases kernelNext_cases m e with ⟨rfl, hsent, hcpu⟩ | ⟨hread, c, hc, hnext⟩
  · rw [hsent, List.append_nil]
    exact h.cpu (hcpu ▸ hm)
  · rw [hread, List.append_nil]
    cases hnext.symm.trans hm
    exact h.delivers hc

/-- **An event that faults** in the main loop is a read, and the shell faults on the byte. -/
theorem Serving.fault {err : Fault} (h : Serving k₀ s₀ d bytes log m) (hm : kernelNext m e = .error err) :
    Faulted k₀ s₀ d bytes (log ++ portRead m e) err := by
  rcases kernelNext_cases m e with ⟨rfl, -, hcpu⟩ | ⟨-, c, -, hnext⟩
  · rw [hcpu] at hm
    obtain ⟨cpu, c⟩ := m
    obtain ⟨k, s, rfl | rfl, hp⟩ := h.state
    · cases hbusy : c.busy with
      | true => rw [cpuStep_wait_busy hbusy] at hm; cases hm
      | false => rw [cpuStep_wait hbusy] at hm; cases hm
    · have hs : terminalRun s (keyboardRead k c.port.data).2 = .error err := by
        cases hs : terminalRun s (keyboardRead k c.port.data).2 with
        | ok s' =>
          rw [cpuStep_fetch, hs] at hm
          cases hm
        | error e' =>
          rw [cpuStep_fetch, hs] at hm
          cases hm
          rfl
      obtain ⟨hloop, hfetch⟩ := h.looping_snoc c.port.look
      have hread : portRead ⟨.fetch k s, c⟩ .cpu = [⟨.getScancode, c.port.look⟩] := rfl
      refine ⟨hloop, ?_, ?_, ?_⟩
      · rw [hread, hfetch, ← h.bytes_eq]
        exact ⟨_, fresh_take _ _⟩
      · rw [hread, hfetch]
        exact h.follows.take.first
      · rw [hread, hfetch]
        exact hp.fault h.follows hs
  · cases hnext.symm.trans hm

end Loop

section Run

variable {mem : Int → UInt16} {first : Byte} {bytes : List Byte} {log : List PortRead}
  {m m' : Kernel} {e : Event}

theorem Serves.delivers {c : Controller} {new : List Byte} (h : Serves mem first bytes log m)
    (hc : Delivers m.ctl c new) : Serves mem first (bytes ++ new) log { m with ctl := c } := by
  cases h with
  | drain hcpu hv hlog hbytes hf =>
    exact .drain (hcpu.imp id fun h => ⟨h.1, hc.full h.2⟩) hv hlog
      (by rw [hc.unread, ← hbytes, List.append_assoc]) (hc.follows hf)
  | loop hs₀ hlog hinit hbytes h =>
    exact .loop hs₀ hlog hinit (by rw [← hbytes, List.append_assoc]) (h.delivers hc)

/-- **One step of the processor** keeps the invariant. -/
theorem Serves.cpu (h : Serves mem first bytes log m) (hm : cpuStep m = .ok m') :
    Serves mem first bytes (log ++ portRead m .cpu) m' := by
  cases h with
  | loop hs₀ hlog hinit hbytes h =>
    exact .loop hs₀ (by rw [hlog, List.append_assoc]) hinit hbytes (h.cpu hm)
  | @drain caller v hcpu hv hlog hbytes hf =>
    obtain ⟨cpu, c⟩ := m
    rcases hcpu with rfl | ⟨rfl, hfull⟩
    · rw [show portRead ⟨.drain caller v, c⟩ .cpu = [] from rfl, List.append_nil]
      cases hfull : c.port.full with
      | true =>
        rw [cpuStep_drain_full hfull] at hm
        cases hm
        exact .drain (Or.inr ⟨rfl, hfull⟩) hv hlog hbytes hf
      | false =>
        cases caller with
        | start =>
          rw [cpuStep_drain_start hfull] at hm
          cases hm
          subst hv
          exact .drain (Or.inl rfl) ((welcomeVga_greetVga mem).trans (if_neg (by decide)).symm) hlog hbytes hf
        | terminalInit =>
          rw [cpuStep_drain_init hfull] at hm
          obtain ⟨s, hs, h1⟩ := bind_ok_iff.mp hm
          cases h1
          rw [if_neg (by decide)] at hv
          subst hv
          have hold := hf.old
          rw [hlog.fresh_eq] at hold
          exact .loop hs (List.append_nil log).symm hlog hbytes
            ⟨fun _ hp => absurd hp List.not_mem_nil, rfl, follows_nil hold, zeroKbd, s,
              Or.inl rfl, .nil zeroKbd s⟩
    · cases hm
      have hread : portRead ⟨.discard caller v, c⟩ .cpu = [⟨.keyboardInit, c.port.look⟩] := rfl
      have hby : readsBy .keyboardInit (log ++ [⟨.keyboardInit, c.port.look⟩]) =
          readsBy .keyboardInit log ++ [c.port.look] := readsBy_append _ _ _
      rw [hread]
      refine .drain (Or.inl rfl) hv (fun p hp => ?_) ?_ ?_
      · rcases List.mem_append.mp hp with hp | hp
        · exact hlog p hp
        · rw [List.mem_singleton.mp hp]
          exact ⟨rfl, hfull⟩
      · rw [← hbytes, discarded, hby, List.map_append, List.append_assoc, Latch.unread_take_of_full hfull]
        rfl
      · rw [hby]
        exact hf.take

/-- **One event** keeps the invariant. -/
theorem Serves.step (h : Serves mem first bytes log m) (hm : kernelNext m e = .ok m') :
    Serves mem first (bytes ++ sent [e]) (log ++ portRead m e) m' := by
  rcases kernelNext_cases m e with ⟨rfl, hsent, hcpu⟩ | ⟨hread, c, hc, hnext⟩
  · rw [hsent, List.append_nil]
    exact h.cpu (hcpu ▸ hm)
  · rw [hread, List.append_nil]
    cases hnext.symm.trans hm
    exact h.delivers hc

/-- While the buffer is drained nothing faults. -/
theorem Serves.fault {err : Fault} (h : Serves mem first bytes log m) (hm : kernelNext m e = .error err) :
    ∃ s₀ init rest later, start mem = .ok s₀ ∧ log = init ++ rest ∧ Draining init ∧
      discarded init ++ later = bytes ∧
      Faulted zeroKbd s₀ ((discarded init).getLastD first) later (rest ++ portRead m e) err := by
  cases h with
  | loop hs₀ hlog hinit hbytes h => exact ⟨_, _, _, _, hs₀, hlog, hinit, hbytes, h.fault hm⟩
  | @drain caller v hcpu hv hlog hbytes hf =>
    rcases kernelNext_cases m e with ⟨-, -, hstep⟩ | ⟨-, c, -, hnext⟩
    · rw [hstep] at hm
      obtain ⟨cpu, c⟩ := m
      rcases hcpu with rfl | ⟨rfl, -⟩
      · cases hfull : c.port.full with
        | true => rw [cpuStep_drain_full hfull] at hm; cases hm
        | false =>
          cases caller with
          | start => rw [cpuStep_drain_start hfull] at hm; cases hm
          | terminalInit =>
            obtain ⟨s₀, hs₀, -⟩ := start_ok mem
            have hinit : terminalInit ⟨bootVga mem, zeroTerm, fsInit zeroFiles⟩ = .ok s₀ := hs₀
            rw [if_neg (by decide)] at hv
            rw [cpuStep_drain_init hfull, hv, hinit] at hm
            cases hm
      · cases hm
    · cases hnext.symm.trans hm

end Run

theorem sent_append (es es' : List Event) : sent (es ++ es') = sent es ++ sent es' := List.filterMap_append

theorem boot_serves (mem : Int → UInt16) (c : Controller) :
    Serves mem c.port.data c.port.unread [] (boot mem c) :=
  .drain (Or.inl rfl) (if_pos rfl).symm (fun _ hp => absurd hp List.not_mem_nil)
    (show [] ++ c.port.unread = c.port.unread from rfl) (follows_nil fun _ => rfl)

/-- The invariant behind every run from boot. -/
theorem boot_run {mem : Int → UInt16} {c : Controller} {es : List Event} {m : Kernel}
    (hrun : exec kernelNext (boot mem c) es = .ok m) :
    Serves mem c.port.data (c.port.unread ++ sent es) (reads (boot mem c) es) m := by
  have h0 : Serves mem c.port.data (c.port.unread ++ sent []) [] (boot mem c) := by
    rw [show sent [] = [] from rfl, List.append_nil]
    exact boot_serves mem c
  have h := exec_trace portRead
    (I := fun es log m => Serves mem c.port.data (c.port.unread ++ sent es) log m)
    (fun js log m e m' h hm => by
      show Serves mem c.port.data (c.port.unread ++ sent (js ++ [e])) (log ++ portRead m e) m'
      rw [sent_append, ← List.append_assoc]
      exact h.step hm) h0 hrun
  rwa [List.nil_append, List.nil_append] at h

/-! ### Polling on -/

/-- The controller is ready and takes the next byte into the register; the processor goes once around its
loop. -/
def poll : List Event := [.status false 0, .latch, .cpu, .cpu]

/-- Once around the loop reads the next byte, wherever the processor is in it. -/
theorem poll_reads {k : Kbd} {s : Sys} {m m' : Kernel} (hloop : m.cpu.InLoop k s)
    (hrun : exec kernelNext m poll = .ok m') :
    (∃ k' s', m'.cpu.InLoop k' s') ∧ m'.ctl.port.unread = m.ctl.port.unread.tail := by
  obtain ⟨cpu, ⟨port, busy, flags⟩⟩ := m
  have htail : port.latch.take.unread = port.unread.tail := by
    cases hun : port.unread with
    | nil =>
      have hnil : port.latch.unread = [] := by rw [Latch.unread_latch, hun]
      have hfull : port.latch.full = false := by
        cases hf : port.latch.full with
        | false => rfl
        | true =>
          rw [Latch.unread_take_of_full hf] at hnil
          cases hnil
      rw [Latch.take_of_empty hfull, hnil]
      rfl
    | cons b bs =>
      rw [Latch.latch_of_unread hun]
      rfl
  obtain ⟨m₁, h1, hrun⟩ := exec_cons_eq_ok.mp hrun
  obtain ⟨m₂, h2, hrun⟩ := exec_cons_eq_ok.mp hrun
  obtain ⟨m₃, h3, hrun⟩ := exec_cons_eq_ok.mp hrun
  rw [exec_singleton] at hrun
  cases h1
  cases h2
  rcases hloop with rfl | rfl
  · rw [show kernelNext _ .cpu = cpuStep ⟨.wait k s, ⟨port.latch, false, 0⟩⟩ from rfl, cpuStep_wait rfl] at h3
    cases h3
    obtain ⟨s', -, h4⟩ := bind_ok_iff.mp (show cpuStep ⟨.fetch k s, ⟨port.latch, false, 0⟩⟩ = .ok m' from hrun)
    cases h4
    exact ⟨⟨_, s', Or.inl rfl⟩, htail⟩
  · obtain ⟨s', -, h4⟩ := bind_ok_iff.mp (show cpuStep ⟨.fetch k s, ⟨port.latch, false, 0⟩⟩ = .ok m₃ from h3)
    cases h4
    have hwait := cpuStep_wait (c := ⟨port.latch.take, false, 0⟩)
      (k := (keyboardRead k port.latch.data).1) (s := s') rfl
    cases hwait.symm.trans hrun
    exact ⟨⟨_, s', Or.inr rfl⟩, htail⟩

/-- **The loop can go on** until every byte is read, or the shell faults. -/
theorem poll_on {k : Kbd} {s : Sys} {m : Kernel} (hloop : m.cpu.InLoop k s) :
    ∃ es, sent es = [] ∧ ∀ m', exec kernelNext m es = .ok m' → m'.ctl.port.unread = [] ∧
      ∃ k s, m'.cpu.InLoop k s := by
  obtain ⟨n, hn⟩ : ∃ n, m.ctl.port.unread.length ≤ n := ⟨_, le_rfl⟩
  induction n generalizing m k s with
  | zero =>
    refine ⟨[], rfl, fun m' hm => ?_⟩
    cases hm
    exact ⟨List.length_eq_zero_iff.mp (Nat.le_zero.mp hn), k, s, hloop⟩
  | succ n ih =>
    cases hpoll : exec kernelNext m poll with
    | error e =>
      refine ⟨poll, rfl, fun m' hm => ?_⟩
      rw [hpoll] at hm
      cases hm
    | ok m₁ =>
      obtain ⟨⟨k', s', hloop'⟩, htail⟩ := poll_reads hloop hpoll
      obtain ⟨es, hes, hrun⟩ := ih hloop' (by rw [htail, List.length_tail]; omega)
      refine ⟨poll ++ es, by rw [sent_append, hes]; rfl, fun m' hm => ?_⟩
      obtain ⟨m₂, h1, h2⟩ := exec_append_eq_ok.mp hm
      cases hpoll.symm.trans h1
      exact hrun m' h2

section Drain

variable (caller : Caller) (v : Vga) {c : Controller} {b : Byte} {ws : List Byte}

/-- A new byte that `keyboard_init` throws away. -/
def discard (b : Byte) : PortRead := ⟨.keyboardInit, ⟨b, true⟩⟩

/-- One round of `keyboard_init`: the next byte is thrown away, and stays in the register. -/
theorem drain_round (h : c.port.unread = b :: ws) :
    exec kernelNext ⟨.drain caller v, c⟩ [.latch, .cpu, .cpu] =
        .ok ⟨.drain caller v, ⟨⟨b, false, ws⟩, c.busy, c.flags⟩⟩ ∧
      reads ⟨.drain caller v, c⟩ [.latch, .cpu, .cpu] = [discard b] := by
  have hlatch : kernelNext ⟨.drain caller v, c⟩ .latch =
      .ok ⟨.drain caller v, ⟨⟨b, true, ws⟩, c.busy, c.flags⟩⟩ := by
    show Except.ok (⟨.drain caller v, ⟨c.port.latch, c.busy, c.flags⟩⟩ : Kernel) = _
    rw [Latch.latch_of_unread h]
  have htest : kernelNext ⟨.drain caller v, ⟨⟨b, true, ws⟩, c.busy, c.flags⟩⟩ .cpu =
      .ok ⟨.discard caller v, ⟨⟨b, true, ws⟩, c.busy, c.flags⟩⟩ := cpuStep_drain_full rfl
  constructor
  · rw [exec_cons_ok hlatch, exec_cons_ok htest]
    rfl
  · rw [reads, trace_cons_ok hlatch, trace_cons_ok htest]
    rfl

/-- **`keyboard_init` can drain the buffer**: it throws every byte away, and the last one stays in the
register. -/
theorem drain_all (hun : c.port.unread = ws) :
    ∃ es, sent es = [] ∧ exec kernelNext ⟨.drain caller v, c⟩ es =
        .ok ⟨.drain caller v, ⟨⟨ws.getLastD c.port.data, false, []⟩, c.busy, c.flags⟩⟩ ∧
      reads ⟨.drain caller v, c⟩ es = ws.map discard := by
  induction ws generalizing c with
  | nil =>
    obtain ⟨⟨data, full, queue⟩, busy, flags⟩ := c
    obtain ⟨hfull, rfl⟩ := List.append_eq_nil_iff.mp hun
    cases full with
    | true => cases hfull
    | false => exact ⟨[], rfl, rfl, rfl⟩
  | cons w ws ih =>
    obtain ⟨hround, hread⟩ := drain_round caller v hun
    obtain ⟨es, hes, hrun, hreads⟩ := ih (c := ⟨⟨w, false, ws⟩, c.busy, c.flags⟩) rfl
    refine ⟨[.latch, .cpu, .cpu] ++ es, hes, exec_append_eq_ok.mpr ⟨_, hround, ?_⟩, ?_⟩
    · rw [hrun, List.getLastD_cons]
    · rw [reads, trace_append hround, ← reads, ← reads, hread, hreads]
      rfl

end Drain

/-- Whatever is in the buffer, the loop is reached. -/
theorem drain_on {mem : Int → UInt16} {caller : Caller} {v : Vga} {c : Controller}
    (hv : v = if caller = .start then greetVga mem else bootVga mem) :
    ∃ es m, sent es = [] ∧ exec kernelNext ⟨.drain caller v, c⟩ es = .ok m ∧ m.ctl.port.unread = [] ∧
      ∃ k s, m.cpu.InLoop k s := by
  obtain ⟨es, hes, hrun, -⟩ := drain_all caller v (c := c) rfl
  obtain ⟨s₀, -, -, hinit, hstart⟩ := drained_enters_loop mem
    (c := ⟨⟨c.port.unread.getLastD c.port.data, false, []⟩, c.busy, c.flags⟩) rfl
  cases caller with
  | start =>
    rw [if_pos rfl] at hv
    subst hv
    exact ⟨es ++ [.cpu, .cpu], _, by rw [sent_append, hes]; rfl, exec_append_eq_ok.mpr ⟨_, hrun, hstart⟩, rfl,
      zeroKbd, s₀, Or.inl rfl⟩
  | terminalInit =>
    rw [if_neg (by decide)] at hv
    subst hv
    exact ⟨es ++ [.cpu], _, by rw [sent_append, hes]; rfl, exec_append_eq_ok.mpr ⟨_, hrun, hinit⟩, rfl,
      zeroKbd, s₀, Or.inl rfl⟩

/-- From every state of a run the machine can go on in this way. -/
theorem Serves.goes_on {mem : Int → UInt16} {first : Byte} {bytes : List Byte}
    {log : List PortRead} {m : Kernel} (h : Serves mem first bytes log m) :
    ∃ es, sent es = [] ∧ ∀ m', exec kernelNext m es = .ok m' → m'.ctl.port.unread = [] ∧
      ∃ k s, m'.cpu.InLoop k s := by
  cases h with
  | loop _ _ _ _ h =>
    obtain ⟨k, s, hl, -⟩ := h.state
    exact poll_on hl
  | @drain caller v hcpu hv _ _ _ =>
    obtain ⟨cpu, c⟩ := m
    rcases hcpu with rfl | ⟨rfl, -⟩
    · obtain ⟨es, m₁, hes, hrun, hend⟩ := drain_on (c := c) hv
      refine ⟨es, hes, fun m' hm => ?_⟩
      obtain rfl : m₁ = m' := Except.ok.inj (hrun.symm.trans hm)
      exact hend
    · obtain ⟨es, m₁, hes, hrun, hend⟩ := drain_on (c := c.take) hv
      refine ⟨.cpu :: es, hes, fun m' hm => ?_⟩
      obtain rfl : m₁ = m' := Except.ok.inj (hrun.symm.trans hm)
      exact hend

/-! ### The result -/

/-- What the log of a run says, from the byte `first` in the register and the bytes `bytes` on: `s₀` is the
shell at the start of the loop, `result` the machine or the fault at the end of the run. -/
structure ServedOnce (first : Byte) (bytes : List Byte) (s₀ : Sys) (log : List PortRead)
    (result : Except Fault Kernel) : Prop where
  /-- `keyboard_init` reads first, and only new bytes; then the loop reads -/
  order : ∃ init rest, log = init ++ rest ∧ Draining init ∧ Looping rest
  /-- an old byte can be the first one that the loop reads: it is the last one that was thrown away -/
  replay : ∀ r, (fetches log).head? = some r → r.new = false → r.value = (discarded log).getLastD first
  /-- the bytes are those thrown away, those read by the loop as new ones, and those not read -/
  split : ∀ m, result = .ok m → discarded log ++ fresh (fetches log) ++ m.ctl.port.unread = bytes
  /-- driver and shell have processed the first read of the loop and the new ones behind it -/
  state : ∀ m k s, result = .ok m → m.cpu.InLoop k s → Processed zeroKbd s₀ (seen (fetches log)) k s
  /-- the machine can go on into the loop and until nothing is left to read, unless the shell faults -/
  progress : ∀ m, result = .ok m → ∃ es, sent es = [] ∧
    ∀ m', exec kernelNext m es = .ok m' → m'.ctl.port.unread = [] ∧ ∃ k s, m'.cpu.InLoop k s
  /-- a fault is a fault of the shell on these bytes -/
  fault : ∀ e, result = .error e → discarded log ++ fresh (fetches log) <+: bytes ∧
    exec terminalRun s₀ (outputs keyboardRead zeroKbd (seen (fetches log))) = .error e

section Served

variable {mem : Int → UInt16} {first : Byte} {bytes : List Byte} {s₀ : Sys} {log : List PortRead}

theorem Serves.servedOnce {m : Kernel} (hs₀ : start mem = .ok s₀) (h : Serves mem first bytes log m) :
    ServedOnce first bytes s₀ log (.ok m) := by
  have hon := h.goes_on
  cases h with
  | drain hcpu hv hlog hbytes hf =>
    have hnone : ∀ k s, ¬ m.cpu.InLoop k s := by
      intro k s hloop
      rcases hcpu with hcpu | ⟨hcpu, -⟩ <;> rcases hloop with h | h <;> cases hcpu.symm.trans h
    refine ⟨⟨log, [], (List.append_nil log).symm, hlog, fun _ hp => absurd hp List.not_mem_nil⟩, fun r hr => ?_,
      fun m' hm => ?_, fun m' k s hm hl => ?_, fun m' hm => ?_, fun e he => ?_⟩
    · rw [hlog.fetches_eq] at hr
      cases hr
    · cases hm
      rw [hlog.fetches_eq, show fresh ([] : List (Read Byte)) = [] from rfl, List.append_nil, hbytes]
    · cases hm
      exact absurd hl (hnone k s)
    · cases hm
      exact hon
    · cases he
  | @loop s₁ init rest later hs₁ hlog hinit hbytes h =>
    obtain rfl : s₀ = s₁ := Except.ok.inj (hs₀.symm.trans hs₁)
    obtain ⟨hdis, hfetch⟩ := split_log hinit h.looping
    rw [← hlog] at hdis hfetch
    refine ⟨⟨init, rest, hlog, hinit, h.looping⟩, fun r hr => ?_, fun m' hm => ?_, fun m' k s hm hl => ?_,
      fun m' hm => ?_, fun e he => ?_⟩
    · rw [hfetch] at hr
      rw [hdis]
      exact h.follows.first r hr
    · cases hm
      rw [hdis, hfetch, List.append_assoc, h.bytes_eq, hbytes]
    · cases hm
      obtain ⟨k', s', hl', hp⟩ := h.state
      obtain ⟨rfl, rfl⟩ := hl.unique hl'
      rwa [hfetch]
    · cases hm
      exact hon
    · cases he

/-- A run that faults. -/
theorem servedOnce_fault {init rest : List PortRead} {later : List Byte} {e : Fault} (hinit : Draining init)
    (hbytes : discarded init ++ later <+: bytes)
    (h : Faulted zeroKbd s₀ ((discarded init).getLastD first) later rest e) :
    ServedOnce first bytes s₀ (init ++ rest) (.error e) := by
  obtain ⟨hdis, hfetch⟩ := split_log hinit h.looping
  refine ⟨⟨init, rest, rfl, hinit, h.looping⟩, fun r hr => ?_, fun m hm => ?_,
    fun m k s hm => ?_, fun m hm => ?_, fun e' he => ?_⟩
  · rw [hfetch] at hr
    rw [hdis]
    exact h.replay r hr
  · cases hm
  · cases hm
  · cases hm
  · cases he
    rw [hdis, hfetch]
    exact ⟨((List.prefix_append_right_inj _).mpr h.bytes_eq).trans hbytes, h.shell⟩

end Served

/-- **The main loop serves every byte once**: for every interleaving of the processor and the controller, from
any state of the controller on, the bytes there were and those that were sent are the ones thrown away by
`keyboard_init`, then those the loop has read as new ones, then those it has not read, in their order; driver
and shell are in the state in which the bytes of the loop leave them, possibly behind the last byte that was
thrown away; and the machine faults only where the shell does on these bytes. -/
theorem main_loop_serves (mem : Int → UInt16) (c : Controller) (es : List Event) :
    ∃ s₀, start mem = .ok s₀ ∧ ServedOnce c.port.data (c.port.unread ++ sent es) s₀ (reads (boot mem c) es)
      (exec kernelNext (boot mem c) es) := by
  obtain ⟨s₀, hs₀, -⟩ := start_ok mem
  refine ⟨s₀, hs₀, ?_⟩
  cases hrun : exec kernelNext (boot mem c) es with
  | ok m => exact (boot_run hrun).servedOnce hs₀
  | error e =>
    obtain ⟨pre, ev, post, m, rfl, hpre, hm, hlog⟩ := exec_fault portRead hrun
    obtain ⟨s₁, init, rest, later, hs₁, hsplit, hinit, hbytes, h⟩ := (boot_run hpre).fault hm
    obtain rfl : s₀ = s₁ := Except.ok.inj (hs₀.symm.trans hs₁)
    rw [reads, hlog, ← reads, hsplit, List.append_assoc]
    refine servedOnce_fault hinit ?_ h
    rw [hbytes, sent_append]
    exact (List.prefix_append_right_inj _).mpr (List.prefix_append _ _)

/-- An answer of the keyboard waits at boot and is thrown away; then the `a` key goes down, and the loop reads
it. -/
def sampleEvents : List Event := [.latch, .cpu, .cpu] ++ ([.cpu, .cpu] ++ [.send 0x1E, .latch, .cpu, .cpu])

theorem main_loop_sample : ∃ s₀ s m, start (fun _ => 0) = .ok s₀ ∧
    exec kernelNext (boot (fun _ => 0) ⟨⟨0xFA, true, []⟩, false, 0⟩) sampleEvents = .ok m ∧
    reads (boot (fun _ => 0) ⟨⟨0xFA, true, []⟩, false, 0⟩) sampleEvents =
      [discard 0xFA, ⟨.getScancode, ⟨0x1E, true⟩⟩] ∧
    m.ctl.port.unread = [] ∧ m.cpu.InLoop ⟨0, 0x1E, 1⟩ s ∧ exec terminalRun s₀ [97] = .ok s := by
  obtain ⟨hround, hread⟩ := drain_round .start (greetVga fun _ => 0) (c := ⟨⟨0xFA, true, []⟩, false, 0⟩)
    (show Latch.unread ⟨0xFA, true, []⟩ = 0xFA :: [] from rfl)
  obtain ⟨s₀, hs₀, hst, -, hloop⟩ := drained_enters_loop (fun _ => 0) (c := ⟨⟨0xFA, false, []⟩, false, 0⟩) rfl
  have hsilent := drained_reads_nothing (fun _ => 0) (c := ⟨⟨0xFA, false, []⟩, false, 0⟩) rfl
  obtain ⟨s, hs⟩ := hst.run_ok 97
  have hkey : keyboardRead zeroKbd 0x1E = (⟨0, 0x1E, 1⟩, 97) := by decide +kernel
  have hwait : kernelNext ⟨.wait zeroKbd s₀, ⟨⟨0x1E, true, []⟩, false, 0⟩⟩ .cpu =
      .ok ⟨.fetch zeroKbd s₀, ⟨⟨0x1E, true, []⟩, false, 0⟩⟩ := cpuStep_wait rfl
  have hfetch : exec kernelNext ⟨.wait zeroKbd s₀, ⟨⟨0xFA, false, []⟩, false, 0⟩⟩
    [.send 0x1E, .latch, .cpu, .cpu] = .ok ⟨.wait ⟨0, 0x1E, 1⟩ s, ⟨⟨0x1E, false, []⟩, false, 0⟩⟩ := by
    rw [exec_cons_ok rfl, exec_cons_ok rfl]
    refine (exec_cons_ok hwait).trans ?_
    rw [exec_singleton]
    refine bind_ok_iff.mpr ⟨s, ?_, ?_⟩
    · rw [show (Latch.mk (0x1E : Byte) true []).data = 0x1E from rfl, hkey]
      exact hs
    · rw [show (Latch.mk (0x1E : Byte) true []).data = 0x1E from rfl, hkey]
      rfl
  have hlast : reads ⟨.wait zeroKbd s₀, ⟨⟨0xFA, false, []⟩, false, 0⟩⟩ [.send 0x1E, .latch, .cpu, .cpu] =
      [⟨.getScancode, ⟨0x1E, true⟩⟩] := by
    rw [reads, trace_cons_ok rfl, trace_cons_ok rfl]
    refine (congrArg _ (congrArg _ (trace_cons_ok hwait))).trans ?_
    rw [trace_singleton]
    rfl
  have hlog : reads (boot (fun _ => 0) ⟨⟨0xFA, true, []⟩, false, 0⟩) sampleEvents =
      [discard 0xFA, ⟨.getScancode, ⟨0x1E, true⟩⟩] := by
    rw [sampleEvents, boot, reads, trace_append hround, trace_append hloop, ← reads, ← reads,
      ← reads, hread, hsilent, hlast]
    rfl
  have hrun : exec kernelNext (boot (fun _ => 0) ⟨⟨0xFA, true, []⟩, false, 0⟩) sampleEvents =
      .ok ⟨.wait ⟨0, 0x1E, 1⟩ s, ⟨⟨0x1E, false, []⟩, false, 0⟩⟩ :=
    exec_append_eq_ok.mpr ⟨_, hround, exec_append_eq_ok.mpr ⟨_, hloop, hfetch⟩⟩
  obtain ⟨s₁, hs₁, hserved⟩ := main_loop_serves (fun _ => 0) ⟨⟨0xFA, true, []⟩, false, 0⟩ sampleEvents
  have hp := (hserved.state _ _ _ hrun (Or.inl rfl)).shell
  rw [hlog, show outputs keyboardRead zeroKbd
    (seen (fetches [discard 0xFA, ⟨.getScancode, ⟨0x1E, true⟩⟩])) = [97] by decide +kernel] at hp
  exact ⟨s₁, s, _, hs₁, hrun, hlog, rfl, Or.inl rfl, hp⟩

/-! ### The byte that `keyboard_init` leaves behind -/

/-- **`keyboard_init` does not discard the last byte**: whatever bytes wait in the controller at boot, the
processor can throw all of them away and, with nothing sent, be in its loop with an empty buffer; but then the
first read of the loop gets the last of these bytes again, and driver and shell process it as if its key had
just been pressed. -/
theorem drained_key_replayed (mem : Int → UInt16) (c : Controller) (ws : List Byte) (b : Byte)
    (hun : c.port.unread = ws ++ [b]) :
    ∃ es₁ es₂ s₀ s m, sent es₁ = [] ∧ sent es₂ = [] ∧ start mem = .ok s₀ ∧
      m = ⟨.wait zeroKbd s₀, ⟨⟨b, false, []⟩, c.busy, c.flags⟩⟩ ∧
      exec kernelNext (boot mem c) es₁ = .ok m ∧ reads (boot mem c) es₁ = (ws ++ [b]).map discard ∧
      reads m es₂ = [⟨.getScancode, ⟨b, false⟩⟩] ∧ terminalRun s₀ (keyboardRead zeroKbd b).2 = .ok s ∧
      exec kernelNext m es₂ = .ok ⟨.wait (keyboardRead zeroKbd b).1 s, ⟨⟨b, false, []⟩, false, c.flags⟩⟩ := by
  obtain ⟨es, hes, hdrain, hreads⟩ := drain_all .start (greetVga mem) hun
  rw [List.getLastD_concat] at hdrain
  obtain ⟨s₀, hs₀, hst, -, hloop⟩ := drained_enters_loop mem (c := ⟨⟨b, false, []⟩, c.busy, c.flags⟩) rfl
  obtain ⟨s, hs⟩ := hst.run_ok (keyboardRead zeroKbd b).2
  have hsilent := drained_reads_nothing mem (c := ⟨⟨b, false, []⟩, c.busy, c.flags⟩) rfl
  have hwait : kernelNext ⟨.wait zeroKbd s₀, ⟨⟨b, false, []⟩, false, c.flags⟩⟩ .cpu =
      .ok ⟨.fetch zeroKbd s₀, ⟨⟨b, false, []⟩, false, c.flags⟩⟩ := cpuStep_wait rfl
  refine ⟨es ++ [.cpu, .cpu], [.status false c.flags, .cpu, .cpu], s₀, s, _,
    by rw [sent_append, hes]; rfl, rfl, hs₀, rfl, exec_append_eq_ok.mpr ⟨_, hdrain, hloop⟩, ?_, ?_, hs, ?_⟩
  · rw [reads, boot, trace_append hdrain, ← reads, ← reads, hreads, hsilent, List.append_nil]
  · rw [reads, trace_cons_ok rfl, trace_cons_ok hwait, trace_singleton]
    rfl
  · rw [exec_cons_ok rfl, exec_cons_ok hwait, exec_singleton]
    exact bind_ok_iff.mpr ⟨s, hs, rfl⟩

/-- The `a` key goes down while the kernel boots: the line starts with `a`. -/
theorem drained_key_sample : ∃ es₁ es₂ s₀ s m, sent es₁ = [] ∧ sent es₂ = [] ∧ start (fun _ => 0) = .ok s₀ ∧
    m = ⟨.wait zeroKbd s₀, ⟨⟨0x1E, false, []⟩, true, 0⟩⟩ ∧
    exec kernelNext (boot (fun _ => 0) ⟨⟨0xFA, true, [0x1E]⟩, true, 0⟩) es₁ = .ok m ∧
    reads (boot (fun _ => 0) ⟨⟨0xFA, true, [0x1E]⟩, true, 0⟩) es₁ = [discard 0xFA, discard 0x1E] ∧
    reads m es₂ = [⟨.getScancode, ⟨0x1E, false⟩⟩] ∧ terminalRun s₀ 97 = .ok s ∧
    exec kernelNext m es₂ = .ok ⟨.wait ⟨0, 0x1E, 1⟩ s, ⟨⟨0x1E, false, []⟩, false, 0⟩⟩ := by
  have hread : keyboardRead zeroKbd 0x1E = (⟨0, 0x1E, 1⟩, 97) := by decide +kernel
  have h := drained_key_replayed (fun _ => 0) ⟨⟨0xFA, true, [0x1E]⟩, true, 0⟩ [0xFA] 0x1E rfl
  rwa [hread] at h

end FoxOS
