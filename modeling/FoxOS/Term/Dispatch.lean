import FoxOS.Vga.Printf
import FoxOS.Term.Editor

/-!
# FoxOS.Term.Dispatch — which command a line runs

`execute_command` compares the whole line with the commands that take no argument and only the first bytes of
the line with the five that do.  `commandOf_cases` says what the branch taken knows about the line;
`commandOf_of_starts` that every line with such a beginning ends up in its handler.  So the first word decides
exactly for the lines whose first word does not continue the name of a handler (`dispatch_iff`).
-/

namespace FoxOS

variable {line : List Byte} {c : Command}

/-- The text of the line up to the first space. -/
def firstWord (line : List Byte) : List Byte := line.takeWhile fun c => decide (c ≠ space)

/-- The text that `execute_command` compares with, for each branch. -/
def Command.name : Command → List Byte
  | .help => str "help"
  | .clear => str "clear"
  | .exit => str "exit"
  | .testFormatting => str "test-formatting"
  | .testColors => str "test-colors"
  | .version => str "version"
  | .color => str "color"
  | .pwd => str "pwd"
  | .ls => str "ls"
  | .cd => str "cd"
  | .mkdir => str "mkdir"
  | .touch => str "touch"
  | .rm => str "rm"
  | .unknown => []

/-- The commands that take an argument. -/
def handlers : List Command := [.ls, .cd, .mkdir, .touch, .rm]

/-- All commands. -/
def commands : List Command :=
  [.help, .clear, .exit, .testFormatting, .testColors, .version, .color, .pwd] ++ handlers

theorem name_clean : ∀ c ∈ commands, (0 : Byte) ∉ c.name ∧ space ∉ c.name := by decide +kernel

/-- No command starts with the name of another one that takes an argument. -/
theorem names_apart : ∀ c ∈ handlers, ∀ d ∈ commands, c.name <+: d.name → d = c := by decide +kernel

/-! ### The branch taken -/

/-- The comparison of a branch: the first bytes of the line for a handler, the whole line otherwise. -/
def Command.compare (c : Command) (line : List Byte) : Int :=
  if c ∈ handlers then strncmp line c.name c.name.length else strcmp line c.name

/-- The first command whose comparison succeeds. -/
def firstMatch (line : List Byte) : List Command → Command
  | [] => .unknown
  | c :: cs => if c.compare line = 0 then c else firstMatch line cs

theorem commandOf_eq (line : List Byte) : commandOf line = firstMatch line commands := rfl

theorem firstMatch_cases (line : List Byte) (cs : List Command) :
    (firstMatch line cs ∈ cs ∧ (firstMatch line cs).compare line = 0) ∨
    (firstMatch line cs = .unknown ∧ ∀ c ∈ cs, c.compare line ≠ 0) := by
  induction cs with
  | nil => exact Or.inr ⟨rfl, fun c hc => absurd hc List.not_mem_nil⟩
  | cons c cs ih =>
    rw [firstMatch]
    by_cases hc : c.compare line = 0
    · rw [if_pos hc]
      exact Or.inl ⟨List.mem_cons_self, hc⟩
    · rw [if_neg hc]
      rcases ih with ⟨hmem, hcmp⟩ | ⟨hunk, hno⟩
      · exact Or.inl ⟨List.mem_cons_of_mem c hmem, hcmp⟩
      · exact Or.inr ⟨hunk, List.forall_mem_cons.mpr ⟨hc, hno⟩⟩

/-- What the comparison says about the line. -/
def Command.Accepts (c : Command) (line : List Byte) : Prop :=
  if c ∈ handlers then c.name <+: line else line = c.name

theorem compare_eq_zero (h0 : (0 : Byte) ∉ line) (hc : c ∈ commands) : c.compare line = 0 ↔ c.Accepts line := by
  obtain ⟨hnul, -⟩ := name_clean c hc
  unfold Command.compare Command.Accepts
  by_cases hh : c ∈ handlers
  · rw [if_pos hh, if_pos hh]
    exact strncmp_eq_zero hnul
  · rw [if_neg hh, if_neg hh]
    exact strcmp_eq_zero h0 hnul

/-- **The branch taken** accepts the line, or it is the last one and no command does. -/
theorem commandOf_cases (h0 : (0 : Byte) ∉ line) :
    (commandOf line ∈ commands ∧ (commandOf line).Accepts line) ∨
    (commandOf line = .unknown ∧ ∀ c ∈ commands, ¬ c.Accepts line) := by
  rw [commandOf_eq]
  rcases firstMatch_cases line commands with ⟨hmem, hcmp⟩ | ⟨hunk, hno⟩
  · exact Or.inl ⟨hmem, (compare_eq_zero h0 hmem).mp hcmp⟩
  · exact Or.inr ⟨hunk, fun c hc h => hno c hc ((compare_eq_zero h0 hc).mpr h)⟩

/-- A line that starts with the name of a handler runs it. -/
theorem commandOf_of_starts (h0 : (0 : Byte) ∉ line) (hc : c ∈ handlers) (h : c.name <+: line) :
    commandOf line = c := by
  have hcm : c ∈ commands := List.mem_append_right _ hc
  rcases commandOf_cases h0 with ⟨hmem, hacc⟩ | ⟨-, hno⟩
  · rw [Command.Accepts] at hacc
    by_cases hh : commandOf line ∈ handlers
    · -- both names start the line, so one starts the other
      rw [if_pos hh] at hacc
      rcases List.prefix_or_prefix_of_prefix h hacc with hpre | hpre
      · exact names_apart c hc _ hmem hpre
      · exact (names_apart _ hh c hcm hpre).symm
    · rw [if_neg hh] at hacc
      rw [hacc] at h
      exact names_apart c hc _ hmem h
  · exact absurd (show c.Accepts line by rw [Command.Accepts, if_pos hc]; exact h) (hno c hcm)

/-! ### The first word -/

theorem firstWord_of_starts {name : List Byte} (hs : space ∉ name) (h : name <+: line) :
    name <+: firstWord line := by
  obtain ⟨t, rfl⟩ := h
  rw [firstWord, List.takeWhile_append_of_pos (fun c hc => by simpa using fun (h : c = space) => hs (h ▸ hc))]
  exact List.prefix_append _ _

theorem firstWord_of_no_space (hs : space ∉ line) : firstWord line = line :=
  List.takeWhile_eq_self_iff.mpr fun c hc => by simpa using fun (h : c = space) => hs (h ▸ hc)

/-- The first word does not continue the name of a handler. -/
def WordIsName (line : List Byte) : Prop := ∀ c ∈ handlers, c.name <+: firstWord line → firstWord line = c.name

/-- Then the branch taken is the one the first word names. -/
theorem firstWord_of_commandOf (h0 : (0 : Byte) ∉ line) (hw : WordIsName line)
    (hc : commandOf line ∈ commands) : firstWord line = (commandOf line).name := by
  obtain ⟨-, hsp⟩ := name_clean _ hc
  rcases commandOf_cases h0 with ⟨-, hacc⟩ | ⟨hunk, -⟩
  · rw [Command.Accepts] at hacc
    by_cases hh : commandOf line ∈ handlers
    · rw [if_pos hh] at hacc
      exact hw _ hh (firstWord_of_starts hsp hacc)
    · rw [if_neg hh] at hacc
      rw [← hacc] at hsp ⊢
      exact firstWord_of_no_space hsp
  · rw [hunk] at hc
    exact absurd hc (by decide)

/-! ### The result -/

/-- The reply to a line that names no command. -/
theorem printf_unknown (s : Sys) (line : CString) :
    s.printf (str "Unknown command: %s\n") [.string line.val] =
      .ok (s.withVga (putChars s.vga (str "Unknown command: " ++ (line.val ++ [newline])))) := by
  have hp : pieces (str "Unknown command: %s\n") = (str "Unknown command: ").map .lit ++
      [.conv 115, .lit newline] := by
    decide +kernel
  have hs : Supplies (pieces (str "Unknown command: %s\n")) [.string line.val] := by
    have hline : (Arg.string line.val).Has .string := line.noNul
    rw [hp]
    exact Supplies.lits (.arg rfl hline (.plain rfl (.nil _))) _
  have hchars := printfChars_eq _ _ hs
  rw [if_pos (by decide +kernel), hp, expansion_lits] at hchars
  rw [Sys.printf, vgaPrintf, hchars, Except.bind, Except.bind]
  rfl

/-- What it means that a line is dispatched by its first word. -/
structure DispatchedByWord (s : Sys) (line : CString) : Prop where
  handler : ∀ c ∈ handlers, commandOf line.val = c → firstWord line.val = c.name
  unknown : firstWord line.val ∉ commands.map Command.name →
    ∃ s', executeLine s line = .ok s' ∧ s'.fs = s.fs ∧ s'.term.currentDir = s.term.currentDir ∧
      s'.vga = putChars s.vga (str "Unknown command: " ++ (line.val ++ [newline]))

/-- **Commands and first words**: in every state of the system, a line of printable characters that fits the
input buffer is dispatched by its first word exactly when that word does not continue the name of a handler. -/
theorem dispatch_iff (s : Sys) (line : CString) (hne : line.val ≠ [])
    (hlen : line.val.length < terminalBufferSize) (_hpr : ∀ c ∈ line.val, Printable c) :
    DispatchedByWord s line ↔ ∀ c ∈ handlers, c.name <+: firstWord line.val → firstWord line.val = c.name := by
  constructor
  · intro h c hc hpre
    exact h.handler c hc (commandOf_of_starts line.noNul hc (hpre.trans (List.takeWhile_prefix _)))
  · intro hw
    refine ⟨?_, fun hno => ?_⟩
    · rintro c hc rfl
      exact firstWord_of_commandOf line.noNul hw (List.mem_append_right _ hc)
    · have hunk : commandOf line.val = .unknown := by
        rcases commandOf_cases line.noNul with ⟨hmem, -⟩ | ⟨hunk, -⟩
        · exact absurd (List.mem_map.mpr ⟨_, hmem, (firstWord_of_commandOf line.noNul hw hmem).symm⟩) hno
        · exact hunk
      have hrun := printf_unknown (typed s line.val) line
      rw [executeLine_eq s hlen, if_neg hne, runCommand, hunk]
      -- the text printed is not looked into
      change ∃ s', Sys.printf _ _ _ = .ok s' ∧ _ ∧ _ ∧ s'.vga = putChars (typed s line.val).vga _
      revert hrun
      generalize putChars (typed s line.val).vga _ = v
      exact fun hrun => ⟨_, hrun, rfl, rfl, rfl⟩

/-- A line for a handler, and an unknown command. -/
theorem dispatch_sample : ∃ s : Sys, s.fs = fsInit zeroFiles ∧
    (DispatchedByWord s (lit "ls d") ∧ commandOf (str "ls d") = .ls) ∧
      DispatchedByWord s (lit "foo bar") ∧ firstWord (str "foo bar") ∉ commands.map Command.name := by
  refine ⟨⟨⟨fun _ => 0, 0, 0, 0, 0, 0, []⟩, zeroTerm, fsInit zeroFiles⟩, rfl, ⟨?_, by decide +kernel⟩, ?_,
    by decide +kernel⟩
  · exact (dispatch_iff _ (lit "ls d") (by decide) (by decide) (by decide +kernel)).mpr (by decide +kernel)
  · exact (dispatch_iff _ (lit "foo bar") (by decide) (by decide) (by decide +kernel)).mpr (by decide +kernel)

/-- `rmdir` is not a command, and deletes a directory. -/
theorem rmdir_runs_rm : ∃ s₀ s s', start (fun _ => 0) = .ok s₀ ∧ executeLine s₀ (lit "mkdir /d") = .ok s ∧
    executeLine s (lit "rmdir /d") = .ok s' ∧ firstWord (str "rmdir /d") = str "rmdir" ∧
    commandOf (str "rmdir /d") = .rm ∧ s.fs.fileCount = 2 ∧ s'.fs.fileCount = 1 := by
  have h : ((start fun _ => 0).bind fun s₀ => (executeLine s₀ (lit "mkdir /d")).bind fun s =>
      (executeLine s (lit "rmdir /d")).bind fun s' => .ok (s.fs.fileCount, s'.fs.fileCount)) = .ok (2, 1) := by
    decide +kernel
  obtain ⟨s₀, hs₀, h⟩ := bind_ok_iff.mp h
  obtain ⟨s, hs, h⟩ := bind_ok_iff.mp h
  obtain ⟨s', hs', h⟩ := bind_ok_iff.mp h
  simp only [Except.ok.injEq, Prod.mk.injEq] at h
  exact ⟨s₀, s, s', hs₀, hs, hs', by decide +kernel, by decide +kernel, h.1, h.2⟩

end FoxOS
