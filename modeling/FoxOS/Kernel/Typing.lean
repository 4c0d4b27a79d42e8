import FoxOS.Kernel.Loop
import FoxOS.Term.Screen
import FoxOS.Term.View

/-!
# FoxOS.Kernel.Typing — from key strokes to command lines

The keyboard, the controller, the driver, the line editor and the shell together.  `keys_reach_shell`: whatever
the interleaving, the shell has run the characters of the key presses.  `stroke` goes the other way: how to type
a character.  So a session in which somebody types command lines runs these command lines
(`session_runs_lines`), and what is known of runs of command lines is known of the machine.
-/

namespace FoxOS

open Mealy Polled Runs

/-! ### An idle machine -/

/-- A byte that the driver ignores when no key is down. -/
def Silent (b : Byte) : Prop := keyboardRead zeroKbd b = (zeroKbd, 0)

instance (b : Byte) :
    Decidable (Silent b) := inferInstanceAs (Decidable (keyboardRead zeroKbd b = (zeroKbd, 0)))

/-- The break code of a key is silent. -/
theorem silent_of_break {b : Byte} (h : 128 ≤ b) : Silent b := by
  refine ByteMem.forall_byte (p := fun b => 128 ≤ b → Silent b) ?_ b h
  decide +kernel

/-- The loop waits, no key is down, and nothing is left to read. -/
structure Kernel.Idle (m : Kernel) (s : Sys) : Prop where
  cpu : m.cpu = .wait zeroKbd s
  unread : m.ctl.port.unread = []
  silent : Silent m.ctl.port.data

section Idle

variable {m m' : Kernel} {s s' : Sys} {k : Kbd} {es : List Event}

theorem Kernel.Idle.serving (h : m.Idle s) : Serving zeroKbd s m.ctl.port.data [] [] m :=
  ⟨fun _ hp => absurd hp List.not_mem_nil, h.unread, follows_nil fun _ => rfl, zeroKbd, s, Or.inl h.cpu,
    .nil zeroKbd s⟩

/-- The invariant of the loop behind every run of an idle machine. -/
theorem Kernel.Idle.run (h : m.Idle s) (hrun : exec kernelNext m es = .ok m') :
    Serving zeroKbd s m.ctl.port.data (sent es) (reads m es) m' := by
  have h0 : Serving zeroKbd s m.ctl.port.data (sent []) [] m := h.serving
  have hend := exec_trace portRead (I := fun es log m' => Serving zeroKbd s m.ctl.port.data (sent es) log m')
    (fun js log m e m' h hm => by
      rw [sent_append]
      exact h.step hm) h0 hrun
  rwa [List.nil_append, List.nil_append] at hend

/-- A silent byte in front changes nothing. -/
theorem silent_skip {b : Byte} (hb : Silent b) (s : Sys) (bytes : List Byte) :
    after keyboardRead zeroKbd (b :: bytes) = after keyboardRead zeroKbd bytes ∧
      exec terminalRun s (outputs keyboardRead zeroKbd (b :: bytes)) =
        exec terminalRun s (outputs keyboardRead zeroKbd bytes) := by
  rw [after_cons, outputs_cons, hb]
  exact ⟨rfl, exec_cons_ok (terminalRun_zero s)⟩

/-- **The outcome does not depend on the interleaving**: an idle machine that has read everything has processed
what was sent. -/
theorem Kernel.Idle.settled (h : m.Idle s) (hrun : exec kernelNext m es = .ok m')
    (hread : m'.ctl.port.unread = []) :
    ∃ s', exec terminalRun s (outputs keyboardRead zeroKbd (sent es)) = .ok s' ∧
      m'.cpu.InLoop (after keyboardRead zeroKbd (sent es)) s' := by
  have hserving := h.run hrun
  obtain ⟨k, s', hloop, rfl, hshell⟩ := hserving.state
  have hbytes := hserving.bytes_eq
  rw [hread, List.append_nil] at hbytes
  refine ⟨s', ?_⟩
  rcases seen_eq hserving.follows.first with hseen | hseen
  · rw [hseen, hbytes] at hloop hshell
    exact ⟨hshell, hloop⟩
  · obtain ⟨hafter, hexec⟩ := silent_skip h.silent s (sent es)
    rw [hseen, hbytes] at hloop hshell
    rw [hafter] at hloop
    rw [hexec] at hshell
    exact ⟨hshell, hloop⟩

/-- **A fault of the machine** is a fault of the shell on what was sent. -/
theorem Kernel.Idle.fault {e : Fault} (h : m.Idle s) (hrun : exec kernelNext m es = .error e) :
    exec terminalRun s (outputs keyboardRead zeroKbd (sent es)) = .error e := by
  obtain ⟨pre, ev, post, m₁, rfl, hpre, hev, -⟩ := exec_fault portRead hrun
  have hfault := (h.run hpre).fault hev
  -- the bytes up to the fault are the first of those sent
  obtain ⟨rest, hrest⟩ := hfault.bytes_eq
  have hshell := hfault.shell
  rw [sent_append, ← hrest, List.append_assoc, outputs_append]
  refine exec_append_of_error ?_ _
  rcases seen_eq hfault.replay with hseen | hseen
  · rwa [hseen] at hshell
  · rwa [hseen, (silent_skip h.silent s _).2] at hshell

end Idle

/-! ### Carrying out a computation -/

/-- **The machine carries out** a computation with the events `es`: `result` is what the computation comes to,
and `At m' t` says that the machine is where it ends. -/
structure Carries {τ : Type} (m : Kernel) (es : List Event) (result : Except Fault τ) (At : Kernel → τ → Prop) :
    Prop where
  /-- the machine faults only if the computation does -/
  fault : ∀ e, exec kernelNext m es = .error e → result = .error e
  /-- a machine that has read everything is at the end -/
  settled : ∀ m', exec kernelNext m es = .ok m' → m'.ctl.port.unread = [] → ∃ t, result = .ok t ∧ At m' t
  /-- with nothing more sent it can come to the end, or to the fault -/
  completes : ∃ es', sent es' = [] ∧
    Rel (fun m' t => m'.ctl.port.unread = [] ∧ At m' t) (exec kernelNext m (es ++ es')) result

/-- What follows the computation step by step is carried out with it. -/
theorem Carries.rel {τ τ' : Type} {m : Kernel} {es : List Event} {x : Except Fault τ} {y : Except Fault τ'}
    {Q : τ → τ' → Prop} {At : Kernel → τ → Prop} {At' : Kernel → τ' → Prop} (h : Carries m es x At)
    (hxy : Rel Q x y)
    (hAt : ∀ m' t t', At m' t → Q t t' → At' m' t') : Carries m es y At' := by
  obtain ⟨es', hes', hend⟩ := h.completes
  cases hxy with
  | error e =>
    refine ⟨fun e' he => ?_, fun m' hm hread => ?_, es', hes', ?_⟩
    · cases h.fault e' he
      rfl
    · obtain ⟨t, ht, -⟩ := h.settled m' hm hread
      cases ht
    · generalize exec kernelNext m (es ++ es') = r at hend ⊢
      cases hend
      exact .error e
  | @ok t t' hQ =>
    refine ⟨fun e he => ?_, fun m' hm hread => ?_, es', hes', ?_⟩
    · cases h.fault e he
    · obtain ⟨t₁, ht, hat⟩ := h.settled m' hm hread
      cases ht
      exact ⟨t', rfl, hAt m' t t' hat hQ⟩
    · generalize exec kernelNext m (es ++ es') = r at hend ⊢
      cases hend with
      | ok hat => exact .ok ⟨hat.1, hAt _ _ _ hat.2 hQ⟩

/-- **An idle machine carries out** what the shell does with the driver's characters. -/
theorem Kernel.Idle.carries {m : Kernel} {s : Sys} (h : m.Idle s) (es : List Event) :
    Carries m es (exec terminalRun s (outputs keyboardRead zeroKbd (sent es)))
      (fun m' s' => m'.cpu.InLoop (after keyboardRead zeroKbd (sent es)) s') := by
  refine ⟨fun e he => h.fault he, fun m' hm hread => h.settled hm hread, ?_⟩
  cases hrun : exec kernelNext m es with
  | error e =>
    refine ⟨[], rfl, ?_⟩
    rw [List.append_nil, hrun, h.fault hrun]
    exact .error e
  | ok m' =>
    obtain ⟨k, s', hloop, -⟩ := (h.run hrun).state
    obtain ⟨es', hes', hstop⟩ := poll_on hloop
    have hsent : sent (es ++ es') = sent es := by rw [sent_append, hes', List.append_nil]
    refine ⟨es', hes', ?_⟩
    cases hend : exec kernelNext m (es ++ es') with
    | error e =>
      have hfault := h.fault hend
      rw [hsent] at hfault
      rw [hfault]
      exact .error e
    | ok m'' =>
      obtain ⟨m₁, h1, h2⟩ := exec_append_eq_ok.mp hend
      cases hrun.symm.trans h1
      obtain ⟨hread, -⟩ := hstop m'' h2
      obtain ⟨s'', hs'', hat⟩ := h.settled hend hread
      rw [hsent] at hs'' hat
      rw [hs'']
      exact .ok ⟨hread, hat⟩

/-- Each byte is sent, taken into the register and read before the next one. -/
def oneByOne (bytes : List Byte) : List Event := bytes.flatMap fun b => [.send b, .latch, .cpu, .cpu]

theorem sent_oneByOne (bytes : List Byte) : sent (oneByOne bytes) = bytes := by
  induction bytes with
  | nil => rfl
  | cons b bytes ih => exact congrArg (b :: ·) ih

/-- The loop at the prompt with the release of Enter in the register. -/
def promptKernel (s : Sys) : Kernel := ⟨.wait zeroKbd s, ⟨⟨0x9C, false, []⟩, false, 0⟩⟩

theorem idle_promptKernel (s : Sys) : (promptKernel s).Idle s :=
  ⟨rfl, rfl, silent_of_break (show (128 : Byte) ≤ 0x9C by decide)⟩

/-- The shell does with the bytes of a stream of key events what it does with the characters of the presses. -/
theorem exec_pressChars {keys : List KeyEvent} (s : Sys) (h : WellFormed .allUp keys) :
    exec terminalRun s (outputs keyboardRead zeroKbd (keys.map KeyEvent.byte)) =
      exec terminalRun s (pressChars zeroKbd keys) := by
  rw [← exec_filter_silent terminalRun_zero, latched_zeroKbd.outputs h, exec_filter_silent terminalRun_zero]

/-- **The keys reach the shell**: for every stream of presses, repeats and releases that a keyboard can send and
every interleaving in which its bytes are sent, an idle machine carries out what the shell does with the
characters of the presses, one by one: it faults only if the shell does, once everything is read it has the
shell that has run these characters, and it always can come to this. -/
theorem keys_reach_shell (m : Kernel) (s : Sys) (keys : List KeyEvent) (es : List Event) (hidle : m.Idle s)
    (hkeys : WellFormed .allUp keys) (hsent : sent es = keys.map KeyEvent.byte) :
    Carries m es (exec terminalRun s (pressChars zeroKbd keys))
      (fun m' s' => m'.cpu.InLoop (after keyboardRead zeroKbd (keys.map KeyEvent.byte)) s') := by
  have h := hidle.carries es
  rwa [hsent, exec_pressChars s hkeys] at h

/-- `a` and `s` are pressed one behind the other, `a` is released last. -/
theorem keys_reach_sample : ∃ s₀ m s, start (fun _ => 0) = .ok s₀ ∧
    exec kernelNext (promptKernel s₀) (oneByOne [0x1E, 0x1E, 0x1F, 0x9F, 0x9E]) = .ok m ∧
      m.ctl.port.unread = [] ∧
    m.cpu.InLoop zeroKbd s ∧ exec terminalRun s₀ (str "as") = .ok s ∧
    s.term.bufferPos = 2 ∧ s.term.inputBuffer 0 = 97 ∧ s.term.inputBuffer 1 = 115 := by
  have hrun : ((start fun _ => 0).bind fun s₀ =>
      (exec kernelNext (promptKernel s₀) (oneByOne [0x1E, 0x1E, 0x1F, 0x9F, 0x9E])).bind fun m =>
        .ok m.ctl.port.unread) = .ok [] := by
    decide +kernel
  have hline : ((start fun _ => 0).bind fun s₀ => (exec terminalRun s₀ (str "as")).bind fun s =>
      .ok (s.term.bufferPos, s.term.inputBuffer 0, s.term.inputBuffer 1)) = .ok (2, 97, 115) := by
    decide +kernel
  obtain ⟨s₀, hs₀, h1⟩ := bind_ok_iff.mp hrun
  obtain ⟨m, hm, h2⟩ := bind_ok_iff.mp h1
  have h := keys_reach_shell _ s₀ [.press 0x1E, .typematic 0x1E, .press 0x1F, .release 0x1F, .release 0x1E]
    _ (idle_promptKernel s₀) (by decide +kernel) (sent_oneByOne _)
  obtain ⟨s, hs, hloop⟩ := h.settled m hm (Except.ok.inj h2)
  have hs : exec terminalRun s₀ (str "as") = .ok s := hs
  rw [hs₀, Except.bind] at hline
  obtain ⟨s₁, hs₁, h3⟩ := bind_ok_iff.mp hline
  cases hs.symm.trans hs₁
  have h3 := Except.ok.inj h3
  exact ⟨s₀, m, s, hs₀, hm, Except.ok.inj h2, hloop, hs, congrArg (·.1) h3, congrArg (·.2.1) h3,
    congrArg (·.2.2) h3⟩

/-! ### Typing a character -/

/-- A character that has a key, under shift or not. -/
def Typeable (c : Byte) : Prop := Printable c ∨ c ∈ [newline, backspace, charLeft, charRight, charDel]

instance (c : Byte) : Decidable (Typeable c) := inferInstanceAs (Decidable (_ ∨ _))

/-- The key for a character: an arrow, or its place in the plain table, or else in the shifted one. -/
def keyOf (c : Byte) : Byte :=
  if c = charLeft then keyLeft
  else if c = charRight then keyRight
  else if c = charDel then keyDelete
  else if c ∈ scancodeToChar then UInt8.ofNat (scancodeToChar.idxOf c)
  else UInt8.ofNat (scancodeToCharShift.idxOf c)

def needsShift (c : Byte) : Bool := decide (c ∉ [charLeft, charRight, charDel] ++ scancodeToChar)

/-- A key is pressed and released. -/
def tap (key : Byte) : List KeyEvent := [.press key, .release key]

/-- The key strokes for a character, with the left shift key held if it needs one. -/
def stroke (c : Byte) : List KeyEvent :=
  if needsShift c then [.shift keyLshift] ++ tap (keyOf c) ++ [.shift (keyLshift ||| 0x80)] else tap (keyOf c)

/-- The key strokes for a text. -/
def typing (cs : List Byte) : List KeyEvent := cs.flatMap stroke

/-- The driver gets the character out of its stroke, and is left as it was. -/
theorem stroke_read {c : Byte} (h : Typeable c) :
    pressChars zeroKbd (stroke c) = [c] ∧ after keyboardRead zeroKbd ((stroke c).map KeyEvent.byte) = zeroKbd ∧
      IsKey (keyOf c) := by
  refine ByteMem.forall_byte (p := fun c => Typeable c → pressChars zeroKbd (stroke c) = [c] ∧
    after keyboardRead zeroKbd ((stroke c).map KeyEvent.byte) = zeroKbd ∧ IsKey (keyOf c)) ?_ c h
  decide +kernel

section Streams

variable {p : Keys} {k : Kbd} {cs : List Byte} {key : Byte}

theorem pressChars_append (k : Kbd) (ds es : List KeyEvent) :
    pressChars k (ds ++ es) = pressChars k ds ++
      pressChars (after keyboardRead k (ds.map KeyEvent.byte)) es := by
  induction ds generalizing k with
  | nil => rfl
  | cons d ds ih =>
    rcases d with c | c | c | b | _
    · exact congrArg (scancodeChar k.shiftPressed c :: ·) (ih _)
    all_goals exact ih _

/-- **Reading back** what was typed. -/
theorem pressChars_typing (h : ∀ c ∈ cs, Typeable c) :
    pressChars zeroKbd (typing cs) = cs ∧
      after keyboardRead zeroKbd ((typing cs).map KeyEvent.byte) = zeroKbd := by
  induction cs with
  | nil => exact ⟨rfl, rfl⟩
  | cons c cs ih =>
    obtain ⟨hc, hafter, -⟩ := stroke_read (h c List.mem_cons_self)
    obtain ⟨ihc, iha⟩ := ih fun d hd => h d (List.mem_cons_of_mem c hd)
    rw [typing, List.flatMap_cons, pressChars_append, List.map_append, after_append, hafter, hc]
    exact ⟨congrArg (c :: ·) ihc, iha⟩

theorem wellFormed_append {ds es : List KeyEvent} :
    WellFormed p (ds ++ es) ↔ WellFormed p ds ∧ WellFormed (ds.foldl Keys.next p) es := by
  induction ds generalizing p with
  | nil => exact ⟨fun h => ⟨trivial, h⟩, fun h => h.2⟩
  | cons d ds ih => rw [List.cons_append, WellFormed, ih, WellFormed, List.foldl_cons, and_assoc]

/-- No key but shift is down. -/
def Keys.Free (p : Keys) : Prop := ∀ key, p.down key = false

theorem tap_free (hp : p.Free) (hkey : IsKey key) :
    WellFormed p (tap key) ∧ ((tap key).foldl Keys.next p).Free := by
  refine ⟨⟨⟨hkey, hp key⟩, ⟨hkey, ?_⟩, trivial⟩, fun other => ?_⟩
  · exact Function.update_self key true p.down
  · show Function.update (Function.update p.down key true) key false other = false
    by_cases ho : other = key
    · rw [ho, Function.update_self]
    · rw [Function.update_of_ne ho, Function.update_of_ne ho, hp]

theorem stroke_free {c : Byte} (hp : p.Free) (hc : Typeable c) :
    WellFormed p (stroke c) ∧ ((stroke c).foldl Keys.next p).Free := by
  obtain ⟨-, -, hkey⟩ := stroke_read hc
  obtain ⟨htap, hfree⟩ := tap_free hp hkey
  unfold stroke
  by_cases hs : needsShift c = true
  · rw [if_pos hs, wellFormed_append, wellFormed_append, List.foldl_append, List.foldl_append]
    have hbreak : keyLshift ||| 0x80 ∈ [keyLshift, keyRshift, keyLshift ||| 0x80, keyRshift ||| 0x80] :=
      List.mem_cons_of_mem _ (List.mem_cons_of_mem _ List.mem_cons_self)
    exact ⟨⟨⟨⟨List.mem_cons_self, trivial⟩, htap⟩, ⟨hbreak, trivial⟩⟩, hfree⟩
  · rw [if_neg hs]
    exact ⟨htap, hfree⟩

/-- A keyboard can send what is typed. -/
theorem wellFormed_typing (hp : p.Free) (h : ∀ c ∈ cs, Typeable c) : WellFormed p (typing cs) := by
  induction cs generalizing p with
  | nil => trivial
  | cons c cs ih =>
    obtain ⟨hc, hfree⟩ := stroke_free hp (h c List.mem_cons_self)
    rw [typing, List.flatMap_cons, wellFormed_append]
    exact ⟨hc, ih hfree fun d hd => h d (List.mem_cons_of_mem c hd)⟩

end Streams

/-! ### Entering lines -/

section Lines

variable {z : Zipper Byte} {s s' t : Sys} {c : Byte}

/-- A key other than Enter leaves the directory and the file system alone. -/
theorem terminalRun_same (h : Editing z s.term) (hc : c ≠ newline) (hs : terminalRun s c = .ok s') :
    SameShell s s' := by
  have hstep := terminalRun_step h c
  generalize lineKey z c = z' at hstep
  generalize keyEffect s.term c = e at hstep
  rw [hs] at hstep
  generalize hr : Except.ok s' = r at hstep
  rcases hstep with _ | _ | hE | hc'
  · cases hr
    exact .refl s
  · cases hr
    exact ⟨rfl, rfl⟩
  · rw [editLine, redraw_eq hE] at hr
    cases hr
    exact ⟨rfl, rfl⟩
  · exact absurd hc' hc

/-- **Typing** characters behind the line. -/
theorem type_text {left cs : List Byte} (hcs : ∀ c ∈ cs, Printable c) (h : LineInv ⟨left, []⟩ s)
    (hlen : left.length + cs.length < terminalBufferSize) :
    ∃ s', exec terminalRun s cs = .ok s' ∧ LineInv ⟨left ++ cs, []⟩ s' ∧ SameShell s s' := by
  induction cs generalizing s left with
  | nil => exact ⟨s, rfl, by rwa [List.append_nil], .refl s⟩
  | cons c cs ih =>
    have hc := hcs c List.mem_cons_self
    have hne : c ≠ newline := hc.ne (by decide)
    rw [List.length_cons] at hlen
    obtain ⟨s₁, hs₁⟩ := (h.no_fault c).2 hne
    have hkey : lineKey ⟨left, []⟩ c = ⟨left ++ [c], []⟩ := by
      rw [lineKey_printable hc, Zipper.insert, if_pos]
      show left.length + 0 < terminalBufferSize - 1
      omega
    obtain ⟨s', hs', hline, hsame⟩ := ih (fun d hd => hcs d (List.mem_cons_of_mem c hd)) (hkey ▸ h.step hs₁)
      (by rw [List.length_append, List.length_singleton]; omega)
    refine ⟨s', by rw [exec_cons_ok hs₁, hs'], ?_, (terminalRun_same h.editing hne hs₁).trans hsame⟩
    rwa [List.append_assoc] at hline

/-- A line that fits the input buffer and can be typed. -/
def LineOk (line : CString) : Prop := (∀ c ∈ line.val, Printable c) ∧ line.val.length < terminalBufferSize

instance (line : CString) : Decidable (LineOk line) := inferInstanceAs (Decidable (_ ∧ _))

/-- Between two lines: the line is empty, and the shell is that of the run of command lines. -/
structure AtPrompt (s t : Sys) : Prop where
  line : LineInv .empty s
  same : SameShell s t

/-- **Entering a line** does what `execute_command` does with the line in its buffer. -/
theorem enter_line {line : CString} (h : AtPrompt s t) (hline : LineOk line) :
    Rel AtPrompt (exec terminalRun s (line.val ++ [newline])) (executeLine t line) := by
  obtain ⟨s₁, hs₁, hinv, hsame⟩ := type_text hline.1 h.line (by simpa using hline.2)
  rw [List.nil_append] at hinv
  -- the shells differ only in what is on the screen and in the buffer
  have hview : SameShell (s₁.withVga (vgaPutchar s₁.vga newline)) (typed t line.val) :=
    ⟨hsame.symm.dir.trans h.same.dir, hsame.symm.fs.trans h.same.fs⟩
  have hexec := Editing.executeCommand (s := s₁.withVga (vgaPutchar s₁.vga newline)) hinv.editing
  rw [exec_append, hs₁, Except.bind, exec_singleton, terminalRun_newline, hexec, executeLine_eq t hline.2]
  rw [show (⟨line.val, []⟩ : Zipper Byte).toList = line.val from List.append_nil _]
  have hnext : ∀ x : Except Fault Sys, executeCommand (s₁.withVga (vgaPutchar s₁.vga newline)) = x →
      ∀ s₂, x = .ok s₂ → LineInv .empty s₂.prompt := by
    rintro _ hx s₂ rfl
    have hrun : terminalRun s₁ newline = .ok s₂.prompt := by
      rw [terminalRun_newline, hx]
      rfl
    exact hinv.step hrun
  rw [show (⟨line.val, []⟩ : Zipper Byte).toList = line.val from List.append_nil _] at hexec
  by_cases hne : line.val = []
  · rw [if_pos hne] at hexec ⊢
    rw [if_pos hne]
    exact .ok ⟨hnext _ hexec _ rfl, ⟨hview.dir, hview.fs⟩⟩
  · rw [if_neg hne] at hexec ⊢
    rw [if_neg hne]
    have hrel := runCommand_same hview line.val
    generalize runCommand (s₁.withVga (vgaPutchar s₁.vga newline)) line.val = x at hexec hrel ⊢
    generalize runCommand (typed t line.val) line.val = y at hrel ⊢
    rcases hrel with hR | e
    · exact .ok ⟨hnext _ hexec _ rfl, ⟨hR.dir, hR.fs⟩⟩
    · exact .error e

/-- The characters of a session: every line is entered. -/
def sessionText (lines : List CString) : List Byte := lines.flatMap fun line => line.val ++ [newline]

/-- **A session** at the prompt runs its lines. -/
theorem enter_lines {lines : List CString} (h : AtPrompt s t) (hlines : ∀ line ∈ lines, LineOk line) :
    Rel AtPrompt (exec terminalRun s (sessionText lines)) (exec executeLine t lines) := by
  induction lines generalizing s t with
  | nil => exact .ok h
  | cons line lines ih =>
    rw [sessionText, List.flatMap_cons, exec_append, exec_cons]
    exact (enter_line h (hlines line List.mem_cons_self)).bind fun _ _ h' =>
      ih h' fun l hl => hlines l (List.mem_cons_of_mem line hl)

theorem typeable_sessionText {lines : List CString} (hlines : ∀ line ∈ lines, LineOk line) :
    ∀ c ∈ sessionText lines, Typeable c := by
  intro c hc
  obtain ⟨line, hl, hc⟩ := List.mem_flatMap.mp hc
  rcases List.mem_append.mp hc with hc | hc
  · exact Or.inl ((hlines line hl).1 c hc)
  · exact Or.inr (List.mem_singleton.mp hc ▸ List.mem_cons_self)

end Lines

/-- The machine is back at an empty prompt with no key down, and with the directory and the file system of
`t`. -/
def Kernel.BackAt (m : Kernel) (t : Sys) : Prop :=
  ∃ s, m.cpu.InLoop zeroKbd s ∧ LineInv .empty s ∧ s.term.currentDir = t.term.currentDir ∧ s.fs = t.fs

/-- **A session at the keyboard runs its command lines**: for every list of lines that fit the input buffer, the
key strokes for them are a stream that a keyboard can send, and for every interleaving in which these bytes are
sent, an idle machine at an empty prompt carries out what executing the lines one after another does: it faults
only if a line does (or is `exit`), once everything is read it is back at an empty prompt with the directory and
the file system that the lines leave, and it always can come to this. -/
theorem session_runs_lines (m : Kernel) (s : Sys) (lines : List CString) (es : List Event)
    (hlines : ∀ line ∈ lines, LineOk line) (hidle : m.Idle s) (hprompt : LineInv .empty s)
    (hsent : sent es = (typing (sessionText lines)).map KeyEvent.byte) :
    WellFormed .allUp (typing (sessionText lines)) ∧ Carries m es (exec executeLine s lines) Kernel.BackAt := by
  have htype := typeable_sessionText hlines
  have hkeys : WellFormed .allUp (typing (sessionText lines)) := wellFormed_typing (fun _ => rfl) htype
  obtain ⟨hchars, hkbd⟩ := pressChars_typing htype
  have h := hidle.carries es
  rw [hsent, exec_pressChars s hkeys, hchars, hkbd] at h
  refine ⟨hkeys, h.rel (enter_lines ⟨hprompt, .refl s⟩ hlines) fun m' s' t hloop hat => ?_⟩
  exact ⟨s', hloop, hat.line, hat.same.dir, hat.same.fs⟩

/-- The keys for `mkdir A` and Enter. -/
theorem session_sample : ∃ s₀ m t, start (fun _ => 0) = .ok s₀ ∧
    exec kernelNext (promptKernel s₀)
    (oneByOne ((typing (sessionText [lit "mkdir A"])).map KeyEvent.byte)) = .ok m ∧
    m.ctl.port.unread = [] ∧ exec executeLine s₀ [lit "mkdir A"] = .ok t ∧ m.BackAt t ∧ t.fs.fileCount = 2 := by
  have hrun : ((start fun _ => 0).bind fun s₀ =>
      (exec kernelNext (promptKernel s₀)
        (oneByOne ((typing (sessionText [lit "mkdir A"])).map KeyEvent.byte))).bind fun m =>
          .ok m.ctl.port.unread) = .ok [] := by
    decide +kernel
  have hline : ((start fun _ => 0).bind fun s₀ => (exec executeLine s₀ [lit "mkdir A"]).bind fun t =>
      .ok t.fs.fileCount) = .ok 2 := by
    decide +kernel
  obtain ⟨s₀, hs₀, h1⟩ := bind_ok_iff.mp hrun
  obtain ⟨m, hm, h2⟩ := bind_ok_iff.mp h1
  obtain ⟨s₁, hs₁, hst⟩ := start_ok fun _ => 0
  obtain rfl : s₀ = s₁ := Except.ok.inj (hs₀.symm.trans hs₁)
  obtain ⟨-, h⟩ :=
    session_runs_lines _ s₀ [lit "mkdir A"] _ (by decide +kernel) (idle_promptKernel s₀) hst.lineInv
    (sent_oneByOne _)
  obtain ⟨t, ht, hback⟩ := h.settled m hm (Except.ok.inj h2)
  rw [hs₀, Except.bind] at hline
  obtain ⟨t₁, ht₁, h3⟩ := bind_ok_iff.mp hline
  cases ht.symm.trans ht₁
  exact ⟨s₀, m, t, hs₀, hm, Except.ok.inj h2, ht, hback, Except.ok.inj h3⟩

end FoxOS
