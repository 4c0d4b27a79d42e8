import FoxOS.Lib.Shift
import FoxOS.Fs.Model
import FoxOS.Kbd.Model
import FoxOS.Vga.Model

/-!
# FoxOS.Term.Model — the shell and the line editor (`src/terminal.c`, `src/kernel.c`)

`terminalRun` is one call of `terminal_run` with the character `keyboard_read` returned.  The input buffer
is an array with checked accesses; `current_dir`, the arguments and the paths built from them are strings
that have to fit their buffers.  `exit` switches the machine off and ends the run.

Positions in the input buffer are natural numbers: the code decrements them only behind a check.
-/

namespace FoxOS

open Shift

def terminalBufferSize : ℕ := 256
def terminalPrompt : List Byte := str "FoxOS> "

/-- The static variables of the terminal. -/
structure Term where
  inputBuffer : ℕ → Byte
  bufferPos : ℕ
  promptLength : ℕ
  cursorPos : ℕ
  currentDir : List Byte
  currentColor : UInt8

structure Sys where
  vga : Vga
  term : Term
  fs : FS

def Sys.withVga (s : Sys) (v : Vga) : Sys := { s with vga := v }
def Sys.withFs (s : Sys) (fs : FS) : Sys := { s with fs := fs }
def Sys.withDir (s : Sys) (dir : List Byte) : Sys := { s with term := { s.term with currentDir := dir } }

def Sys.printf (s : Sys) (format : List Byte) (args : List Arg) : Except Fault Sys :=
  (vgaPrintf s.vga format args).bind fun v => .ok (s.withVga v)

/-- Calls of `vga_printf`, one after another. -/
def Sys.printfs (s : Sys) : List (List Byte × List Arg) → Except Fault Sys
  | [] => .ok s
  | (format, args) :: rest => (s.printf format args).bind fun s => s.printfs rest

/-! ### The input line -/

def inputFault : Fault := .outOfBounds .inputBuffer

def clearBuffer (t : Term) : Term :=
  { t with
    inputBuffer := fun i => if i < terminalBufferSize then 0 else t.inputBuffer i
    bufferPos := 0
    cursorPos := 0 }

def updateCursorPosition (s : Sys) : Sys :=
  let newX := (s.term.promptLength + s.term.cursorPos) % vgaWidth
  let newY : Int := s.vga.cursorY - ((s.term.promptLength + s.term.bufferPos) / vgaWidth : ℕ) +
    ((s.term.promptLength + s.term.cursorPos) / vgaWidth : ℕ)
  s.withVga (vgaSetCursor s.vga newX newY)

def redrawInputLine (s : Sys) : Except Fault Sys :=
  let y : Int := s.vga.cursorY - ((s.term.promptLength + s.term.bufferPos) / vgaWidth : ℕ)
  let x : Int := (s.term.promptLength % vgaWidth : ℕ)
  let v := putChars (vgaSetCursor s.vga x y) (List.replicate (s.term.bufferPos + 1) space)
  (readAll terminalBufferSize inputFault s.term.bufferPos s.term.inputBuffer).bind fun line =>
    .ok (updateCursorPosition (s.withVga (putChars (vgaSetCursor v x y) line)))

/-! ### Paths and arguments -/

/-- `parse_args`: the command name is skipped; the second argument runs to the end of the line. -/
def parseArgs (cmd : List Byte) : Except Fault (List Byte × List Byte) :=
  let cmd := cmd.dropWhile (fun c => decide (c ≠ space))
  let cmd := cmd.dropWhile (fun c => decide (c = space))
  (fit .arg1 maxFilename (cmd.takeWhile (fun c => decide (c ≠ space)))).bind fun arg1 =>
    let cmd := cmd.dropWhile (fun c => decide (c ≠ space))
    let cmd := cmd.dropWhile (fun c => decide (c = space))
    (fit .arg2 maxFilename cmd).bind fun arg2 => .ok (arg1, arg2)

/-- The string `build_path` writes: `current_dir[1]` is not NUL unless the directory is the root. -/
def fullPathOf (currentDir relativePath : List Byte) : List Byte :=
  if relativePath.head? = some slash then relativePath
  else currentDir ++ (if 1 < currentDir.length then [slash] else []) ++ relativePath

def buildPath (currentDir relativePath : List Byte) : Except Fault (List Byte) :=
  fit .fullPath (maxFilename * 2) (fullPathOf currentDir relativePath)

/-! ### Commands on the file system -/

def lsCommand (s : Sys) (line : List Byte) : Except Fault Sys :=
  (parseArgs line).bind fun (arg1, _) =>
    (if arg1 = [] ∨ strcmp arg1 (str ".") = 0 then fit .fullPath (maxFilename * 2) s.term.currentDir
      else buildPath s.term.currentDir arg1).bind fun fullPath =>
      (fsListDir s.fs fullPath (maxFiles * (maxFilename + 2))).bind fun (count, listBuffer) =>
        if count < 0 then s.printf (str "Error: Cannot list directory\n") []
        else s.printf (str "%s") [.string listBuffer]

def cdCommand (s : Sys) (line : List Byte) : Except Fault Sys :=
  (parseArgs line).bind fun (arg1, _) =>
    if arg1 = [] then .ok (s.withDir (str "/"))
    else
      (buildPath s.term.currentDir arg1).bind fun fullPath =>
        (fsGetFile s.fs fullPath).bind fun dir =>
          if dir.any (fun i => decide ((s.fs.files i).type = .dir)) then
            (fit .currentDir (maxFilename * 2) fullPath).bind fun fullPath => .ok (s.withDir fullPath)
          else s.printf (str "Error: Directory not found\n") []

def mkdirCommand (s : Sys) (line : List Byte) : Except Fault Sys :=
  (parseArgs line).bind fun (arg1, _) =>
    if arg1 = [] then s.printf (str "Error: Directory name required\n") []
    else
      (buildPath s.term.currentDir arg1).bind fun fullPath =>
        (fsMkdir s.fs fullPath).bind fun (result, fs) =>
          if result < 0 then (s.withFs fs).printf (str "Error: Cannot create directory\n") []
          else .ok (s.withFs fs)

/-- `touch` looks for the last slash and creates the file itself. -/
def touchCommand (s : Sys) (line : List Byte) : Except Fault Sys :=
  (parseArgs line).bind fun (arg1, _) =>
    if arg1 = [] then s.printf (str "Error: File name required\n") []
    else
      (buildPath s.term.currentDir arg1).bind fun fullPath =>
        let last := lastSlash fullPath
        (fit .parentPath (maxFilename * 2) (fullPath.take last)).bind fun parentPath =>
          (fsParsePath s.fs (if parentPath = [] then [slash] else parentPath)).bind fun parentIndex =>
            if 0 ≤ parentIndex then
              (fsCreateFile s.fs (fullPath.drop (last + 1)) .file parentIndex.toNat).bind fun (result, fs) =>
                if result < 0 then (s.withFs fs).printf (str "Error: Cannot create file\n") []
                else .ok (s.withFs fs)
            else s.printf (str "Error: Invalid path\n") []

def rmCommand (s : Sys) (line : List Byte) : Except Fault Sys :=
  (parseArgs line).bind fun (arg1, _) =>
    if arg1 = [] then s.printf (str "Error: File/directory name required\n") []
    else
      (buildPath s.term.currentDir arg1).bind fun fullPath =>
        (fsDeleteFile s.fs fullPath).bind fun (result, fs) =>
          if result < 0 then (s.withFs fs).printf (str "Error: Cannot remove file/directory\n") []
          else .ok (s.withFs fs)

/-! ### Other commands -/

def helpLines : List (List Byte × List Arg) :=
  [(str "Available commands:\n", []),
    (str "  help     - Show this help\n", []),
    (str "  clear    - Clear screen\n", []),
    (str "  version  - Show version\n", []),
    (str "  color    - Change text color\n", []),
    (str "  ls       - List directory contents\n", []),
    (str "  cd       - Change directory\n", []),
    (str "  mkdir    - Create directory\n", []),
    (str "  touch    - Create empty file\n", []),
    (str "  rm       - Remove file or empty directory\n", []),
    (str "  pwd      - Print working directory\n", [])]

/-- The constants behind `%x` and `%b` are `int`s that the callee reads as `uint64_t`. -/
def testFormattingLines : List (List Byte × List Arg) :=
  [(str "Decimal numbers:\n", []),
    (str "  Positive: %d\n", [.int 12345]),
    (str "  Negative: %d\n", [.int (-9876)]),
    (str "  Zero: %d\n", [.int 0]),
    (str "  Large Positive: %d\n", [.int 2147483647]),
    (str "  Large Negative: %d\n", [.int (-2147483648)]),
    (str "  Very Large: %lld\n", [.int64 9223372036854775807]),
    (str "  Very Large Negative: %lld\n\n", [.int64 (-9223372036854775807 - 1)]),
    (str "Other formats:\n", []),
    (str "  Hexadecimal: %x\n", [.uint64 0xDEADBEEF]),
    (str "  Binary: %b\n", [.uint64 0b1010110]),
    (str "  Character: %c\n", [.char 65]),
    (str "  String: %s\n", [.string (str "Hello, World!")]),
    (str "  Mixed: Dec=%d, Hex=%x\n\n", [.int 123, .uint64 123])]

/-- The colours `test-colors` shows, each with its text. -/
def testColors : List (UInt8 × List Byte) :=
  [(vgaColorLightRed, str "RED "), (vgaColorLightGreen, str "GREEN "), (vgaColorLightBlue, str "BLUE "),
    (vgaColorLightCyan, str "CYAN "), (vgaColorLightMagenta, str "MAGENTA "), (vgaColorBrown, str "BROWN "),
    (vgaColorWhite, str "WHITE\n")]

/-- Set a colour and print, one after another. -/
def Sys.showColors (s : Sys) : List (UInt8 × List Byte) → Except Fault Sys
  | [] => .ok s
  | (color, text) :: rest =>
    ((s.withVga (vgaSetColor s.vga color vgaColorBlack)).printf text []).bind fun s => s.showColors rest

def colorCommand (s : Sys) : Sys :=
  let color := (s.term.currentColor + 1) % 16
  { s with
    term := { s.term with currentColor := color }
    vga := vgaSetColor s.vga color vgaColorBlack }

/-- The branches of `execute_command`. -/
inductive Command
  | help | clear | exit | testFormatting | testColors | version | color | pwd
  | ls | cd | mkdir | touch | rm | unknown
  deriving DecidableEq

/-- The comparisons of `execute_command`, in their order. -/
def commandOf (line : List Byte) : Command :=
  if strcmp line (str "help") = 0 then .help
  else if strcmp line (str "clear") = 0 then .clear
  else if strcmp line (str "exit") = 0 then .exit
  else if strcmp line (str "test-formatting") = 0 then .testFormatting
  else if strcmp line (str "test-colors") = 0 then .testColors
  else if strcmp line (str "version") = 0 then .version
  else if strcmp line (str "color") = 0 then .color
  else if strcmp line (str "pwd") = 0 then .pwd
  else if strncmp line (str "ls") 2 = 0 then .ls
  else if strncmp line (str "cd") 2 = 0 then .cd
  else if strncmp line (str "mkdir") 5 = 0 then .mkdir
  else if strncmp line (str "touch") 5 = 0 then .touch
  else if strncmp line (str "rm") 2 = 0 then .rm
  else .unknown

def runCommand (s : Sys) (line : List Byte) : Except Fault Sys :=
  match commandOf line with
  | .help => s.printfs helpLines
  | .clear => .ok (s.withVga (vgaClear s.vga))
  | .exit => (s.printf (str "Exiting FoxOS...\n") []).bind fun _ => .error .halt
  | .testFormatting => s.printfs testFormattingLines
  | .testColors => (s.printf (str "\nAvailable colors:\n") []).bind fun s => s.showColors testColors
  | .version => s.printf (str "FoxOS v0.1\n") []
  | .color => .ok (colorCommand s)
  | .pwd => s.printf (str "%s\n") [.string s.term.currentDir]
  | .ls => lsCommand s line
  | .cd => cdCommand s line
  | .mkdir => mkdirCommand s line
  | .touch => touchCommand s line
  | .rm => rmCommand s line
  | .unknown => s.printf (str "Unknown command: %s\n") [.string line]

/-- The string that `execute_command` sees in the input buffer. -/
def commandLine (t : Term) : List Byte := cstr t.inputBuffer terminalBufferSize

def executeCommand (s : Sys) : Except Fault Sys :=
  if s.term.bufferPos = 0 then .ok s
  else
    (storeAt terminalBufferSize inputFault s.term.bufferPos 0 s.term.inputBuffer).bind fun buffer =>
      let t := { s.term with inputBuffer := buffer }
      runCommand { s with term := t } (commandLine t)

/-! ### `terminal_init`, `terminal_run`, `_start` -/

def terminalInit (s : Sys) : Except Fault Sys :=
  let t := { clearBuffer s.term with promptLength := terminalPrompt.length }
  Sys.printf { s with fs := fsInit s.fs.files, term := t } terminalPrompt []

/-- The keys that change the line: the new buffer and positions, then the line is drawn again. -/
def editLine (s : Sys) (buffer : ℕ → Byte) (bufferPos cursorPos : ℕ) : Except Fault Sys :=
  redrawInputLine
    { s with term := { s.term with inputBuffer := buffer, bufferPos := bufferPos, cursorPos := cursorPos } }

def moveCursor (s : Sys) (cursorPos : ℕ) : Sys :=
  updateCursorPosition { s with term := { s.term with cursorPos := cursorPos } }

def terminalRun (s : Sys) (c : Byte) : Except Fault Sys :=
  let t := s.term
  if c = 0 then .ok s
  else if c = charLeft then
    if t.cursorPos > 0 then .ok (moveCursor s (t.cursorPos - 1)) else .ok s
  else if c = charRight then
    if t.cursorPos < t.bufferPos then .ok (moveCursor s (t.cursorPos + 1)) else .ok s
  else if c = charDel then
    if t.cursorPos < t.bufferPos then
      (shiftDown terminalBufferSize inputFault (t.bufferPos - 1 - t.cursorPos) t.cursorPos t.inputBuffer).bind
        fun buffer => (storeAt terminalBufferSize inputFault (t.bufferPos - 1) 0 buffer).bind
          fun buffer => editLine s buffer (t.bufferPos - 1) t.cursorPos
    else .ok s
  else if c = newline then
    (executeCommand (s.withVga (vgaPutchar s.vga newline))).bind fun s =>
      Sys.printf { s with term := clearBuffer s.term } terminalPrompt []
  else if c = backspace then
    if t.cursorPos > 0 then
      (shiftDown terminalBufferSize inputFault (t.bufferPos - 1 - (t.cursorPos - 1)) (t.cursorPos - 1)
        t.inputBuffer).bind
        fun buffer => (storeAt terminalBufferSize inputFault (t.bufferPos - 1) 0 buffer).bind
          fun buffer => editLine s buffer (t.bufferPos - 1) (t.cursorPos - 1)
    else .ok s
  -- `char` is signed: bytes from 128 on are negative
  else if t.bufferPos < terminalBufferSize - 1 ∧ 32 ≤ c ∧ c ≤ 126 then
    (shiftUp terminalBufferSize inputFault (t.bufferPos - t.cursorPos) t.bufferPos t.inputBuffer).bind
      fun buffer => (storeAt terminalBufferSize inputFault t.cursorPos c buffer).bind
        fun buffer => editLine s buffer (t.bufferPos + 1) (t.cursorPos + 1)
  else .ok s

/-- The static variables of the terminal before `terminal_init`. -/
def zeroTerm : Term := ⟨fun _ => 0, 0, 0, 0, str "/", vgaColorLightGreen⟩

/-- The console after the boot messages of `_start`, over any contents `mem` of the text memory. -/
def bootVga (mem : Int → UInt16) : Vga :=
  let v := vgaInit ⟨mem, 0, 0, 0, 0, 0, []⟩
  let v := vgaPuts (vgaPuts v (str "FoxOS starting... ")) (str "OK\n")
  let v := vgaPuts (vgaPuts v (str "Initializing filesystem... ")) (str "OK\n")
  let v := vgaPuts (vgaPuts v (str "Initializing keyboard... ")) (str "OK\n")
  let v := vgaPuts v (str "\nWelcome to FoxOS!\n")
  vgaPuts v (str "Type 'help' for list of commands.\n\n")

/-- `_start` up to the main loop. -/
def start (mem : Int → UInt16) : Except Fault Sys :=
  terminalInit ⟨bootVga mem, zeroTerm, fsInit zeroFiles⟩

end FoxOS
