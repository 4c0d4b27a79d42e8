import FoxOS.Lib.Runs
import FoxOS.Term.Shell

/-!
# FoxOS.Term.Faults — which buffers a command can overrun

`Quiet x`: the computation `x` overruns none of the shell's own buffers.  The file system, the number printers
and `vga_printf` are quiet.  A command line of ordinary length can overrun `full_path` only, and does so exactly
when the path it builds does not fit (`runCommand_quiet`, `runCommand_faults`).  `path_buffers_fit` is the
exact condition for whole runs: each relative argument has to fit behind the current directory, which grows
with every `cd`.
-/

namespace FoxOS

open Shift Runs

variable {A B : Type} {s : Sys} {line : List Byte}

/-! ### Which buffers a command can overrun -/

/-- The buffers of the shell itself. -/
def ShellBuffer : Buffer → Prop
  | .arg1 | .arg2 | .fullPath | .currentDir | .inputBuffer => True
  | _ => False

/-- No buffer of the shell is overrun. -/
def Quiet (x : Except Fault A) : Prop := ∀ b, ShellBuffer b → x ≠ .error (.outOfBounds b)

theorem quiet_ok (a : A) : Quiet (.ok a) := fun _ _ h => nomatch h

theorem quiet_error {b : Buffer} (hb : ¬ ShellBuffer b) : Quiet (.error (.outOfBounds b) : Except Fault A) := by
  intro b' hb' h
  cases h
  exact hb hb'

theorem Quiet.bind {x : Except Fault A} {f : A → Except Fault B} (hx : Quiet x)
    (hf : ∀ a, x = .ok a → Quiet (f a)) : Quiet (x.bind f) := by
  cases x with
  | ok a => exact hf a rfl
  | error e =>
    intro b hb h
    cases h
    exact hx b hb rfl

theorem quiet_fit {b : Buffer} (hb : ¬ ShellBuffer b) (cap : ℕ) (t : List Byte) : Quiet (fit b cap t) := by
  unfold fit
  split_ifs
  · exact quiet_ok _
  · exact quiet_error hb

theorem quiet_fit_of_lt {b : Buffer} {cap : ℕ} {t : List Byte} (h : t.length < cap) : Quiet (fit b cap t) := by
  rw [fit_of_lt h]
  exact quiet_ok _

section Fs

variable (fs : FS)

theorem quiet_parsePath (path : List Byte) : Quiet (fsParsePath fs path) := by
  have hloop : ∀ (cur : ℕ) (path : List Byte), Quiet (fsParseLoop fs cur path) := by
    intro cur path
    fun_induction fsParseLoop fs cur path with
    | case1 cur path e h =>
      have hg : Quiet (getNextPathComponent path) :=
        (quiet_fit (by simp [ShellBuffer]) _ _).bind fun _ _ => quiet_ok _
      rw [h] at hg
      intro b hb he
      cases he
      exact hg b hb rfl
    | case5 cur path next h ih => exact ih
    | case7 cur path c next h hne found hfind ih => exact ih
    | case2 => exact quiet_ok _
    | case3 => exact quiet_ok _
    | case4 => exact quiet_ok _
    | case6 => exact quiet_ok _
  unfold fsParsePath
  split_ifs
  · exact quiet_ok _
  · exact hloop 0 path

theorem quiet_getFile (path : List Byte) : Quiet (fsGetFile fs path) :=
  (quiet_parsePath fs path).bind fun _ _ => quiet_ok _

theorem quiet_createFile (name : List Byte) (type : FileType) (p : ℕ) :
    Quiet (fsCreateFile fs name type p) := by
  unfold fsCreateFile
  split_ifs
  · exact quiet_ok _
  · exact quiet_ok _
  · exact quiet_ok _
  · exact quiet_error (by simp [ShellBuffer])
  · exact quiet_ok _

theorem quiet_createAt (type : FileType) (path : List Byte) : Quiet (createAt type fs path) := by
  rw [createAt_def]
  refine (quiet_fit (by simp [ShellBuffer]) _ _).bind fun d _ => ?_
  by_cases hp : path = []
  · rw [if_pos hp]
    exact quiet_error (by simp [ShellBuffer])
  rw [if_neg hp]
  refine (quiet_fit (by simp [ShellBuffer]) _ _).bind fun n _ => ?_
  by_cases hn : n = []
  · rw [if_pos hn]
    exact quiet_ok _
  rw [if_neg hn]
  refine (quiet_parsePath fs _).bind fun index _ => ?_
  by_cases hi : index < 0
  · rw [if_pos hi]
    exact quiet_ok _
  · rw [if_neg hi]
    exact quiet_createFile fs _ _ _

theorem quiet_deleteFile (path : List Byte) : Quiet (fsDeleteFile fs path) := by
  refine (quiet_parsePath fs path).bind fun index _ => ?_
  split_ifs
  · exact quiet_ok _
  · exact quiet_ok _
  · exact quiet_ok _

theorem quiet_listLoop (dir bufferSize : ℕ) (is : List ℕ) (text : List Byte) (count : ℕ) :
    Quiet (listLoop fs dir bufferSize is text count) := by
  induction is generalizing text count with
  | nil => exact quiet_ok _
  | cons i is ih =>
    simp only [listLoop]
    split_ifs
    · exact ih _ _
    · exact quiet_ok _
    · exact quiet_error (by simp [ShellBuffer])
    · exact ih _ _
    · exact ih _ _

theorem quiet_listDir (path : List Byte) (bufferSize : ℕ) : Quiet (fsListDir fs path bufferSize) := by
  refine (quiet_parsePath fs path).bind fun index _ => ?_
  split_ifs
  · exact quiet_ok _
  · refine (quiet_listLoop fs _ _ _ _ _).bind fun a _ => ?_
    exact (quiet_fit (by simp [ShellBuffer]) _ _).bind fun _ _ => quiet_ok _

end Fs

/-! ### Printing -/

theorem quiet_digitLoop (base : ℕ) (digit : ℕ → Byte) (room num : ℕ) (buf : List Byte) :
    Quiet (digitLoop base digit room num buf) := by
  fun_induction digitLoop base digit room num buf with
  | case1 => exact quiet_ok _
  | case2 => exact quiet_error (by simp [ShellBuffer])
  | case3 room num buf ih => exact ih

theorem quiet_putDec (num : Int) : Quiet (putDecChars num) := by
  unfold putDecChars
  split_ifs
  · exact quiet_ok _
  · exact (quiet_ok _).bind fun _ _ => quiet_ok _
  · exact (quiet_ok _).bind fun _ _ => quiet_ok _
  · exact (quiet_digitLoop _ _ _ _ _).bind fun _ _ => quiet_ok _
  · exact (quiet_digitLoop _ _ _ _ _).bind fun _ _ => quiet_ok _

theorem quiet_withArg {f : Arg → Option (Except Fault (List Byte))}
    (hf : ∀ a x, f a = some x → Quiet x) (args : List Arg) : Quiet (withArg f args) := by
  cases args with
  | nil => exact quiet_error (by simp [ShellBuffer])
  | cons a args =>
    cases hfa : f a with
    | none =>
      simp only [withArg, hfa]
      exact quiet_error (by simp [ShellBuffer])
    | some x =>
      simp only [withArg, hfa]
      exact (hf a x hfa).bind fun _ _ => quiet_ok _

theorem quiet_directive (c : Byte) (args : List Arg) : Quiet (directive c args) := by
  unfold directive
  split_ifs
  · refine quiet_withArg (fun a x h => ?_) args
    cases a <;> cases h
    exact quiet_putDec _
  · refine quiet_withArg (fun a x h => ?_) args
    cases a <;> cases h
    exact (quiet_digitLoop _ _ _ _ _).bind fun _ _ => quiet_ok _
  · refine quiet_withArg (fun a x h => ?_) args
    cases a <;> cases h
    exact (quiet_digitLoop _ _ _ _ _).bind fun _ _ => quiet_ok _
  · refine quiet_withArg (fun a x h => ?_) args
    cases a <;> cases h
    exact quiet_ok _
  · refine quiet_withArg (fun a x h => ?_) args
    cases a <;> cases h
    exact quiet_ok _
  · exact quiet_ok _
  · exact quiet_ok _

theorem quiet_printfChars (format : List Byte) (args : List Arg) : Quiet (printfChars format args) := by
  fun_induction printfChars format args with
  | case1 => exact quiet_ok _
  | case2 args rest ih =>
    refine (quiet_withArg (fun a x h => ?_) args).bind fun p hp => (ih p.2).bind fun _ _ => quiet_ok _
    cases a <;> cases h
    exact quiet_putDec _
  | case3 args d rest h ih => exact ih
  | case4 => exact quiet_error (by simp [ShellBuffer])
  | case5 args d rest h1 h2 h3 ih =>
    exact (quiet_directive d args).bind fun p hp => (ih p.2).bind fun _ _ => quiet_ok _
  | case6 => exact quiet_error (by simp [ShellBuffer])
  | case7 c format args hc ih => exact ih.bind fun _ _ => quiet_ok _

theorem quiet_printf (s : Sys) (format : List Byte) (args : List Arg) : Quiet (s.printf format args) :=
  ((quiet_printfChars format args).bind fun _ _ => quiet_ok _).bind fun _ _ => quiet_ok _

theorem quiet_reply (r : Int) (s : Sys) (text : List Byte) :
    Quiet (if r < 0 then s.printf text [] else .ok s) := by
  by_cases hr : r < 0
  · rw [if_pos hr]
    exact quiet_printf _ _ _
  · rw [if_neg hr]
    exact quiet_ok _

theorem quiet_printfs (calls : List (List Byte × List Arg)) (s : Sys) : Quiet (s.printfs calls) := by
  induction calls generalizing s with
  | nil => exact quiet_ok _
  | cons call rest ih => exact (quiet_printf s _ _).bind fun t _ => ih t

theorem quiet_showColors (colors : List (UInt8 × List Byte)) (s : Sys) : Quiet (s.showColors colors) := by
  induction colors generalizing s with
  | nil => exact quiet_ok _
  | cons c rest ih => exact (quiet_printf _ _ _).bind fun t _ => ih t

/-! ### Arguments and paths -/

/-- The line behind the command name. -/
def argText (line : List Byte) : List Byte :=
  (line.dropWhile (fun c => decide (c ≠ space))).dropWhile (fun c => decide (c = space))

def firstArg (line : List Byte) : List Byte := (argText line).takeWhile (fun c => decide (c ≠ space))

theorem length_argText (line : List Byte) : (argText line).length ≤ line.length :=
  Nat.le_trans (List.dropWhile_suffix _).length_le (List.dropWhile_suffix _).length_le

theorem length_firstArg (line : List Byte) : (firstArg line).length ≤ line.length :=
  Nat.le_trans (List.takeWhile_prefix _).length_le (length_argText line)

/-- The arguments of a line that fits the input buffer fit theirs. -/
theorem parseArgs_total (hlen : line.length < terminalBufferSize) :
    ∃ arg2, parseArgs line = .ok (firstArg line, arg2) := by
  have h1 : (firstArg line).length < maxFilename := Nat.lt_of_le_of_lt (length_firstArg line) hlen
  have h2 : (argText (argText line)).length < maxFilename :=
    Nat.lt_of_le_of_lt (Nat.le_trans (length_argText _) (length_argText line)) hlen
  refine ⟨argText (argText line), ?_⟩
  show (fit .arg1 maxFilename (firstArg line)).bind (fun arg1 =>
    (fit .arg2 maxFilename (argText (argText line))).bind fun arg2 => .ok (arg1, arg2)) = _
  rw [fit_of_lt h1, fit_of_lt h2]
  rfl

/-- The commands that call `build_path`, for a first argument. -/
def needsPath : Command → List Byte → Bool
  | .ls, arg1 => decide (arg1 ≠ [] ∧ strcmp arg1 (str ".") ≠ 0)
  | .cd, arg1 | .mkdir, arg1 | .touch, arg1 | .rm, arg1 => decide (arg1 ≠ [])
  | _, _ => false

/-- The string that `build_path` writes for a command line, if the command calls it. -/
def builtPath (dir line : List Byte) : Option (List Byte) :=
  match parseArgs line with
  | .error _ => none
  | .ok (arg1, _) => if needsPath (commandOf line) arg1 then some (fullPathOf dir arg1) else none

/-- The path the line builds, if any, fits `full_path`. -/
def PathRoom (dir line : List Byte) : Prop := ∀ p, builtPath dir line = some p → p.length < maxFilename * 2

section Commands

variable {arg1 arg2 : List Byte} (ha : parseArgs line = .ok (arg1, arg2))
include ha

theorem builtPath_of {dir : List Byte} (hn : needsPath (commandOf line) arg1 = true) :
    builtPath dir line = some (fullPathOf dir arg1) := by
  simp [builtPath, ha, hn]

theorem quiet_buildPath {dir : List Byte} (hroom : PathRoom dir line)
    (hn : needsPath (commandOf line) arg1 = true) : Quiet (buildPath dir arg1) :=
  quiet_fit_of_lt (hroom _ (builtPath_of ha hn))

theorem quiet_ls (hc : commandOf line = .ls) (hdir : s.term.currentDir.length < maxFilename * 2)
    (hroom : PathRoom s.term.currentDir line) : Quiet (lsCommand s line) := by
  unfold lsCommand
  rw [ha, Except.bind]
  have hpath : Quiet (if arg1 = [] ∨ strcmp arg1 (str ".") = 0
      then fit .fullPath (maxFilename * 2) s.term.currentDir else buildPath s.term.currentDir arg1) := by
    by_cases h : arg1 = [] ∨ strcmp arg1 (str ".") = 0
    · rw [if_pos h]
      exact quiet_fit_of_lt hdir
    · rw [if_neg h]
      refine quiet_buildPath ha hroom ?_
      rw [hc]
      push Not at h
      exact decide_eq_true h
  refine hpath.bind fun full _ => (quiet_listDir _ _ _).bind fun p _ => ?_
  by_cases hn : p.1 < 0
  · simp only [if_pos hn]
    exact quiet_printf _ _ _
  · simp only [if_neg hn]
    exact quiet_printf _ _ _

theorem quiet_cd (hc : commandOf line = .cd) (hroom : PathRoom s.term.currentDir line) :
    Quiet (cdCommand s line) := by
  unfold cdCommand
  rw [ha, Except.bind]
  by_cases hne : arg1 = []
  · simp only [if_pos hne]
    exact quiet_ok _
  simp only [if_neg hne]
  refine (quiet_buildPath ha hroom (by rw [hc]; exact decide_eq_true hne)).bind fun full hfull =>
    (quiet_getFile _ _).bind fun dir _ => ?_
  have hlen : full.length < maxFilename * 2 := by
    obtain ⟨h1, rfl⟩ := fit_eq_ok.mp hfull
    exact h1
  split_ifs
  · exact (quiet_fit_of_lt hlen).bind fun _ _ => quiet_ok _
  · exact quiet_printf _ _ _

theorem quiet_mkdir (hc : commandOf line = .mkdir) (hroom : PathRoom s.term.currentDir line) :
    Quiet (mkdirCommand s line) := by
  unfold mkdirCommand
  rw [ha, Except.bind]
  by_cases hne : arg1 = []
  · simp only [if_pos hne]
    exact quiet_printf _ _ _
  simp only [if_neg hne]
  exact (quiet_buildPath ha hroom (by rw [hc]; exact decide_eq_true hne)).bind fun full _ =>
    (quiet_createAt _ _ _).bind fun p _ => quiet_reply _ _ _

theorem quiet_touch (hc : commandOf line = .touch) (hroom : PathRoom s.term.currentDir line) :
    Quiet (touchCommand s line) := by
  unfold touchCommand
  rw [ha, Except.bind]
  by_cases hne : arg1 = []
  · simp only [if_pos hne]
    exact quiet_printf _ _ _
  simp only [if_neg hne]
  refine (quiet_buildPath ha hroom (by rw [hc]; exact decide_eq_true hne)).bind fun full _ =>
    (quiet_fit (by simp [ShellBuffer]) _ _).bind fun d _ => (quiet_parsePath _ _).bind fun index _ => ?_
  by_cases hpos : 0 ≤ index
  · simp only [if_pos hpos]
    exact (quiet_createFile _ _ _ _).bind fun p _ => quiet_reply _ _ _
  · simp only [if_neg hpos]
    exact quiet_printf _ _ _

theorem quiet_rm (hc : commandOf line = .rm) (hroom : PathRoom s.term.currentDir line) :
    Quiet (rmCommand s line) := by
  unfold rmCommand
  rw [ha, Except.bind]
  by_cases hne : arg1 = []
  · simp only [if_pos hne]
    exact quiet_printf _ _ _
  simp only [if_neg hne]
  exact (quiet_buildPath ha hroom (by rw [hc]; exact decide_eq_true hne)).bind fun full _ =>
    (quiet_deleteFile _ _).bind fun p _ => quiet_reply _ _ _

/-- A path that does not fit is written all the same. -/
theorem command_overrun (hn : needsPath (commandOf line) arg1 = true)
    (hbig : ¬ (fullPathOf s.term.currentDir arg1).length < maxFilename * 2) :
    runCommand s line = .error (.outOfBounds .fullPath) := by
  have hbuild : buildPath s.term.currentDir arg1 = .error (.outOfBounds .fullPath) := if_neg hbig
  unfold runCommand
  cases hc : commandOf line with
  | ls =>
    rw [hc] at hn
    have h : ¬ (arg1 = [] ∨ strcmp arg1 (str ".") = 0) := by
      rw [not_or]
      exact of_decide_eq_true hn
    simp only [lsCommand, ha, Except.bind, if_neg h, hbuild]
  | cd =>
    rw [hc] at hn
    simp only [cdCommand, ha, Except.bind, if_neg (of_decide_eq_true hn : arg1 ≠ []), hbuild]
  | mkdir =>
    rw [hc] at hn
    simp only [mkdirCommand, ha, Except.bind, if_neg (of_decide_eq_true hn : arg1 ≠ []), hbuild]
  | touch =>
    rw [hc] at hn
    simp only [touchCommand, ha, Except.bind, if_neg (of_decide_eq_true hn : arg1 ≠ []), hbuild]
  | rm =>
    rw [hc] at hn
    simp only [rmCommand, ha, Except.bind, if_neg (of_decide_eq_true hn : arg1 ≠ []), hbuild]
  | _ =>
    rw [hc] at hn
    cases hn

end Commands

/-- **One command** of a line that fits the input buffer. -/
theorem runCommand_quiet (hlen : line.length < terminalBufferSize)
    (hdir : s.term.currentDir.length < maxFilename * 2) :
    PathRoom s.term.currentDir line ↔ Quiet (runCommand s line) := by
  obtain ⟨arg2, ha⟩ := parseArgs_total hlen
  constructor
  · intro hroom
    unfold runCommand
    cases hc : commandOf line with
    | help => exact quiet_printfs _ _
    | clear => exact quiet_ok _
    | exit => exact (quiet_printf _ _ _).bind fun _ _ _ _ h => nomatch h
    | testFormatting => exact quiet_printfs _ _
    | testColors => exact (quiet_printf _ _ _).bind fun _ _ => quiet_showColors _ _
    | version => exact quiet_printf _ _ _
    | color => exact quiet_ok _
    | pwd => exact quiet_printf _ _ _
    | ls => exact quiet_ls ha hc hdir hroom
    | cd => exact quiet_cd ha hc hroom
    | mkdir => exact quiet_mkdir ha hc hroom
    | touch => exact quiet_touch ha hc hroom
    | rm => exact quiet_rm ha hc hroom
    | unknown => exact quiet_printf _ _ _
  · intro hq p hp
    by_contra hbig
    by_cases hn : needsPath (commandOf line) (firstArg line) = true
    · rw [builtPath_of ha hn] at hp
      cases hp
      exact hq .fullPath trivial (command_overrun ha hn hbig)
    · simp [builtPath, ha, hn] at hp

/-- Of the shell's buffers a command overruns `full_path` or none. -/
theorem runCommand_faults (hlen : line.length < terminalBufferSize)
    (hdir : s.term.currentDir.length < maxFilename * 2) :
    Quiet (runCommand s line) ∨ runCommand s line = .error (.outOfBounds .fullPath) := by
  obtain ⟨arg2, ha⟩ := parseArgs_total hlen
  by_cases hroom : PathRoom s.term.currentDir line
  · exact Or.inl ((runCommand_quiet hlen hdir).mp hroom)
  by_cases hn : needsPath (commandOf line) (firstArg line) = true
  · refine Or.inr (command_overrun ha hn fun h => hroom fun p hp => ?_)
    cases (builtPath_of ha hn).symm.trans hp
    exact h
  · exact absurd (fun p hp => by simp [builtPath, ha, hn] at hp) hroom

/-! ### Runs of command lines -/

/-- A relative argument fits behind the current directory and a slash. -/
def RoomFor (s : Sys) (line : CString) : Prop :=
  needsPath (commandOf line.val) (firstArg line.val) = true → (firstArg line.val).head? ≠ some slash →
    s.term.currentDir.length + 1 + (firstArg line.val).length ≤ maxFilename * 2 - 1

/-- The string that `build_path` writes fits exactly when there is room for the argument. -/
theorem roomFor_iff {line : CString} (hlen : line.val.length < terminalBufferSize) :
    RoomFor s line ↔ PathRoom s.term.currentDir line.val := by
  obtain ⟨arg2, ha⟩ := parseArgs_total hlen
  have harg := Nat.lt_of_le_of_lt (length_firstArg line.val) hlen
  unfold RoomFor PathRoom
  by_cases hn : needsPath (commandOf line.val) (firstArg line.val) = true
  · have hcap : maxFilename * 2 = 512 ∧ terminalBufferSize = 256 := ⟨rfl, rfl⟩
    rw [builtPath_of ha hn]
    simp only [hn, true_imp_iff, Option.some.injEq, forall_eq', fullPathOf]
    by_cases hs : (firstArg line.val).head? = some slash
    · rw [if_pos hs]
      exact ⟨fun _ => by omega, fun _ h => absurd hs h⟩
    · rw [if_neg hs]
      by_cases hd : 1 < s.term.currentDir.length
      · simp only [if_pos hd, List.length_append, List.length_singleton]
        exact ⟨fun h => by have := h hs; omega, fun h _ => by omega⟩
      · simp only [if_neg hd, List.length_append, List.length_nil]
        exact ⟨fun _ => by omega, fun _ _ => by omega⟩
  · simp [builtPath, ha, hn]

/-- **One line** overruns no buffer of the shell exactly when there is room for its argument. -/
theorem executeLine_quiet {line : CString} (hlen : line.val.length < terminalBufferSize)
    (hdir : s.term.currentDir.length < maxFilename * 2) :
    RoomFor s line ↔ Quiet (executeLine s line) := by
  rw [executeLine_eq s hlen]
  by_cases hne : line.val = []
  · -- the empty line builds no path
    rw [if_pos hne]
    refine iff_of_true (fun hn => ?_) (quiet_ok _)
    rw [hne] at hn
    cases hn
  · rw [if_neg hne]
    exact (roomFor_iff hlen).trans (runCommand_quiet (s := typed s line.val) hlen hdir)

/-- The current directory stays inside its buffer. -/
theorem dir_lt_of_change {dir dir' : List Byte} {fs fs' : FS} (h : ShellChange dir fs line dir' fs')
    (hdir : dir.length < maxFilename * 2) : dir'.length < maxFilename * 2 := by
  cases h with
  | home => decide
  | cd hb _ _ =>
    obtain ⟨arg1, arg2, -, -, rfl, hlt⟩ := hb
    exact hlt
  | same => exact hdir
  | mkdir _ _ => exact hdir
  | touch _ _ _ => exact hdir
  | rm _ _ _ => exact hdir

theorem quiet_of_error {e : Fault} (h : Quiet (.error e : Except Fault A)) :
    Quiet (.error e : Except Fault B) := by
  intro b hb he
  cases he
  exact h b hb rfl

/-- **Runs**: no buffer of the shell is overrun exactly as long as there is room for every relative argument. -/
theorem run_quiet {lines : List CString} (hlen : ∀ l ∈ lines, l.val.length < terminalBufferSize)
    (hdir : s.term.currentDir.length < maxFilename * 2) :
    AllSteps executeLine RoomFor s lines ↔ Quiet (exec executeLine s lines) := by
  induction lines generalizing s with
  | nil => exact iff_of_true trivial (quiet_ok _)
  | cons l lines ih =>
    have hl := hlen l (by simp)
    rw [AllSteps, executeLine_quiet hl hdir, exec_cons]
    cases hstep : executeLine s l with
    | error e =>
      refine ⟨fun h => quiet_of_error h.1, fun h => ⟨quiet_of_error h, fun s₁ h₁ => ?_⟩⟩
      cases h₁
    | ok s₁ =>
      have hrest := ih (fun l' hl' => hlen l' (by simp [hl']))
        (dir_lt_of_change (executeLine_change hl hstep) hdir)
      refine ⟨fun h => hrest.mp (h.2 s₁ rfl), fun h => ⟨quiet_ok _, fun s₂ h₂ => ?_⟩⟩
      cases h₂
      exact hrest.mpr h

/-- **Path buffers of the shell**, for every sequence of command lines that fit the input buffer: all strings
that `build_path` writes fit `full_path` exactly when each relative argument fits behind the current directory
of that moment, and exactly then the run overruns no buffer of the shell.  The current directory always fits its
buffer. -/
theorem path_buffers_fit (mem : Int → UInt16) (lines : List CString)
    (hlen : ∀ l ∈ lines, l.val.length ≤ terminalBufferSize - 1) :
    ∃ s₀, start mem = .ok s₀ ∧
      (AllSteps executeLine RoomFor s₀ lines ↔ AllSteps executeLine
        (fun s l => ∀ p, builtPath s.term.currentDir l.val = some p → p.length ≤ maxFilename * 2 - 1)
        s₀ lines) ∧
      (AllSteps executeLine RoomFor s₀ lines ↔ Quiet (exec executeLine s₀ lines)) ∧
      ∀ s, exec executeLine s₀ lines = .ok s → s.term.currentDir.length ≤ maxFilename * 2 - 1 := by
  obtain ⟨s₀, hstart, hs₀⟩ := start_ok mem
  have hlen' : ∀ l ∈ lines, l.val.length < terminalBufferSize :=
    fun l hl => Nat.lt_of_le_sub_one (by decide) (hlen l hl)
  have hdir₀ : s₀.term.currentDir.length < maxFilename * 2 := by
    rw [hs₀.dir]
    decide
  refine ⟨s₀, hstart, ?_, run_quiet hlen' hdir₀, ?_⟩
  · refine allSteps_congr (I := fun _ => True) (P := fun l : CString => l.val.length < terminalBufferSize)
      (fun s l _ hl => ?_) (fun _ _ _ _ _ _ _ => trivial) trivial hlen'
    rw [roomFor_iff hl]
    exact forall₂_congr fun p _ => Nat.lt_iff_le_pred (by decide)
  · intro s hrun
    have hlt : s.term.currentDir.length < maxFilename * 2 := by
      refine exec_inv (I := fun s => s.term.currentDir.length < maxFilename * 2) ?_ hdir₀
        (allSteps_of_forall hlen') hrun
      intro s l s₁ hdir hl hstep
      exact dir_lt_of_change (executeLine_change hl hstep) hdir
    exact Nat.le_sub_one_of_lt hlt

theorem path_buffers_fit_sample : ∃ s₀ s, start (fun _ => 0) = .ok s₀ ∧
    AllSteps executeLine RoomFor s₀ [lit "mkdir a", lit "cd a"] ∧
    exec executeLine s₀ [lit "mkdir a", lit "cd a"] = .ok s ∧
    Quiet (exec executeLine s₀ [lit "mkdir a", lit "cd a"]) ∧
    s.term.currentDir.length ≤ maxFilename * 2 - 1 := by
  obtain ⟨s₀, hs₀, -, hquiet, hdir⟩ := path_buffers_fit (fun _ => 0)
    [lit "mkdir a", lit "cd a"] (by decide)
  have hrun : ((start fun _ => 0).bind fun s₀ => (executeLine s₀ (lit "mkdir a")).bind fun s₁ =>
      (executeLine s₁ (lit "cd a")).bind fun _ => .ok (s₀.term.currentDir, s₁.term.currentDir)) =
      .ok (str "/", str "/") := by
    decide +kernel
  obtain ⟨s₀', hs₀', h1⟩ := bind_ok_iff.mp hrun
  cases hs₀.symm.trans hs₀'
  obtain ⟨s₁, hs₁, h2⟩ := bind_ok_iff.mp h1
  obtain ⟨s, hs, h3⟩ := bind_ok_iff.mp h2
  obtain ⟨hd₀, hd₁⟩ : s₀.term.currentDir = str "/" ∧ s₁.term.currentDir = str "/" := by
    simpa only [Except.ok.injEq, Prod.mk.injEq] using h3
  have hexec := exec_cons_eq_ok.mpr ⟨s₁, hs₁, exec_cons_eq_ok.mpr ⟨s, hs, exec_nil⟩⟩
  have hroom : AllSteps executeLine RoomFor s₀ [lit "mkdir a", lit "cd a"] := by
    refine ⟨fun _ _ => by rw [hd₀]; decide, fun s' hs' => ⟨fun _ _ => ?_, fun _ _ => trivial⟩⟩
    cases hs₁.symm.trans hs'
    rw [hd₁]
    decide
  exact ⟨s₀, s, hs₀, hroom, hexec, hquiet.mp hroom, hdir s hexec⟩

/-- `cd a///…` with 252 bytes behind the space. -/
def cdSlashes : CString := ⟨str "cd a" ++ List.replicate 251 slash, by decide +kernel⟩

/-- Two such `cd`s make the current directory 506 bytes long: the next path has 512 bytes. -/
theorem cd_overruns_full_path : ∃ s₀ s p, start (fun _ => 0) = .ok s₀ ∧
    exec executeLine s₀ [lit "mkdir a", cdSlashes, lit "mkdir a", cdSlashes] = .ok s ∧
    builtPath s.term.currentDir (str "ls aaaaa") = some p ∧ p.length = 512 ∧
    executeLine s (lit "ls aaaaa") = .error (.outOfBounds .fullPath) := by
  have hrun : ((start fun _ => 0).bind fun s₀ =>
      (exec executeLine s₀ [lit "mkdir a", cdSlashes, lit "mkdir a", cdSlashes]).bind
        fun s => .ok ((builtPath s.term.currentDir (str "ls aaaaa")).map List.length)) = .ok (some 512) := by
    decide +kernel
  obtain ⟨s₀, hs₀, h1⟩ := bind_ok_iff.mp hrun
  obtain ⟨s, hs, h2⟩ := bind_ok_iff.mp h1
  obtain ⟨p, hp, hlen⟩ := Option.map_eq_some_iff.mp (Except.ok.inj h2)
  have ha : parseArgs (str "ls aaaaa") = .ok (str "aaaaa", []) := by decide +kernel
  have hn : needsPath (commandOf (str "ls aaaaa")) (str "aaaaa") = true := by decide +kernel
  refine ⟨s₀, s, p, hs₀, hs, hp, hlen, ?_⟩
  rw [builtPath_of ha hn] at hp
  obtain rfl : fullPathOf s.term.currentDir (str "aaaaa") = p := Option.some.inj hp
  have hbig : ¬ (fullPathOf s.term.currentDir (str "aaaaa")).length < maxFilename * 2 := by
    rw [hlen]
    decide
  rw [executeLine_eq s (by decide), if_neg (by decide)]
  exact command_overrun (s := typed s (str "ls aaaaa")) ha hn hbig

end FoxOS
