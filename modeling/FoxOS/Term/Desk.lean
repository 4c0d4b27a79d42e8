import FoxOS.Fs.Store
import FoxOS.Term.Cd
import FoxOS.Term.Dispatch
import FoxOS.Term.Faults

/-!
# FoxOS.Term.Desk — the shell refines a desk of paths

What the shell is for: a `Desk` is a working directory, a store of paths and a colour, and a command line
changes it and draws something.  `Desk.step` says what, without slots, buffers or a screen.  The shell of the
kernel follows it command by command (`executeLine_answers`) and along whole runs (`shell_refines`): the same
directory, the same store, and a console that has drawn exactly what the desk draws.

Three kinds of lines are outside: `exit`, a path that does not fit `full_path`, and the two defects that the
store cannot show, a far deletion (`Store.nearAt`) and a `touch` behind a trailing slash.
-/

namespace FoxOS

open Segs ParentTable Runs Mealy

/-! ### The desk -/

/-- What commands draw. -/
inductive Draw
  | text (cs : List Byte)
  | clear
  | color (fg : UInt8)
  deriving DecidableEq

def Draw.on (v : Vga) : Draw → Vga
  | .text cs => putChars v cs
  | .clear => vgaClear v
  | .color fg => vgaSetColor v fg vgaColorBlack

def paint (v : Vga) (ds : List Draw) : Vga := ds.foldl Draw.on v

structure Desk where
  dir : List Byte
  store : Store
  color : UInt8

def Desk.init : Desk := ⟨str "/", .init, vgaColorLightGreen⟩

/-- The path that the first argument names. -/
def Desk.path (δ : Desk) (line : List Byte) : List Byte := fullPathOf δ.dir (firstArg line)

/-- The directory `ls` lists. -/
def Desk.lsPath (δ : Desk) (line : List Byte) : List Byte :=
  if firstArg line = [] ∨ firstArg line = str "." then δ.dir else δ.path line

/-- A reply when the result is negative. -/
def complain (result : Int) (text : List Byte) : List Draw := if result < 0 then [.text text] else []

/-- The new store, and a reply when the result says that there is none. -/
def Desk.change (δ : Desk) (r : Store × Int) (text : List Byte) : Desk × List Draw :=
  ({ δ with store := r.1 }, complain r.2 text)

def Desk.ls (δ : Desk) (line : List Byte) : Desk × List Draw :=
  let r := δ.store.list (δ.lsPath line) (maxFiles * (maxFilename + 2))
  (δ, [.text (if r.1 < 0 then str "Error: Cannot list directory\n" else r.2)])

def Desk.cd (δ : Desk) (line : List Byte) : Desk × List Draw :=
  if firstArg line = [] then ({ δ with dir := str "/" }, [])
  else if δ.store.nodeAt (components (δ.path line)) = some .dir then ({ δ with dir := δ.path line }, [])
  else (δ, [.text (str "Error: Directory not found\n")])

def Desk.mkdir (δ : Desk) (line : List Byte) : Desk × List Draw :=
  if firstArg line = [] then (δ, [.text (str "Error: Directory name required\n")])
  else δ.change (δ.store.add .dir (δ.path line)) (str "Error: Cannot create directory\n")

def Desk.touch (δ : Desk) (line : List Byte) : Desk × List Draw :=
  if firstArg line = [] then (δ, [.text (str "Error: File name required\n")])
  else if δ.store.find (components (δ.path line)).dropLast = none
    then (δ, [.text (str "Error: Invalid path\n")])
  else δ.change (δ.store.add (.file []) (δ.path line)) (str "Error: Cannot create file\n")

def Desk.rm (δ : Desk) (line : List Byte) : Desk × List Draw :=
  if firstArg line = [] then (δ, [.text (str "Error: File/directory name required\n")])
  else δ.change (δ.store.delete (δ.path line)) (str "Error: Cannot remove file/directory\n")

def helpText : List (List Byte) := helpLines.map Prod.fst

/-- What `test-formatting` prints, with the numbers in it. -/
def formattingText : List (List Byte) :=
  [str "Decimal numbers:\n", str "  Positive: 12345\n", str "  Negative: -9876\n", str "  Zero: 0\n",
    str "  Large Positive: 2147483647\n", str "  Large Negative: -2147483648\n",
    str "  Very Large: 9223372036854775807\n", str "  Very Large Negative: -9223372036854775808\n\n",
    str "Other formats:\n", str "  Hexadecimal: 0xDEADBEEF\n", str "  Binary: 0b1010110\n",
      str "  Character: A\n",
    str "  String: Hello, World!\n", str "  Mixed: Dec=123, Hex=0x7B\n\n"]

/-- **One command line**: the new desk and what it draws. -/
def Desk.step (δ : Desk) (line : CString) : Desk × List Draw :=
  if line.val = [] then (δ, [])
  else match commandOf line.val with
    | .help => (δ, helpText.map .text)
    | .clear => (δ, [.clear])
    | .exit => (δ, [.text (str "Exiting FoxOS...\n")])
    | .testFormatting => (δ, formattingText.map .text)
    | .testColors =>
      (δ, .text (str "\nAvailable colors:\n") :: testColors.flatMap fun c => [.color c.1, .text c.2])
    | .version => (δ, [.text (str "FoxOS v0.1\n")])
    | .color => ({ δ with color := (δ.color + 1) % 16 }, [.color ((δ.color + 1) % 16)])
    | .pwd => (δ, [.text (δ.dir ++ [newline])])
    | .ls => δ.ls line.val
    | .cd => δ.cd line.val
    | .mkdir => δ.mkdir line.val
    | .touch => δ.touch line.val
    | .rm => δ.rm line.val
    | .unknown => (δ, [.text (str "Unknown command: " ++ (line.val ++ [newline]))])

/-- The lines for which the shell follows: those that fit the input buffer, build a path that fits, touch a name
and delete what is near. -/
structure Desk.Ready (δ : Desk) (line : CString) : Prop where
  fits : line.val.length ≤ terminalBufferSize - 1
  stays : commandOf line.val ≠ .exit
  room : PathRoom δ.dir line.val
  name : commandOf line.val = .touch → firstArg line.val ≠ [] → namePart (δ.path line.val) ≠ []
  near : commandOf line.val = .rm → firstArg line.val ≠ [] → δ.store.nearAt (δ.path line.val) = true

instance (dir line : List Byte) : Decidable (PathRoom dir line) :=
  inferInstanceAs (Decidable (∀ p, builtPath dir line = some p → p.length < maxFilename * 2))

instance (δ : Desk) (line : CString) : Decidable (δ.Ready line) :=
  decidable_of_iff (line.val.length ≤ terminalBufferSize - 1 ∧ commandOf line.val ≠ .exit ∧
    PathRoom δ.dir line.val ∧
      (commandOf line.val = .touch → firstArg line.val ≠ [] → namePart (δ.path line.val) ≠ []) ∧
      (commandOf line.val = .rm → firstArg line.val ≠ [] → δ.store.nearAt (δ.path line.val) = true))
    ⟨fun ⟨h1, h2, h3, h4, h5⟩ => ⟨h1, h2, h3, h4, h5⟩, fun ⟨h1, h2, h3, h4, h5⟩ => ⟨h1, h2, h3, h4, h5⟩⟩

/-- Every line of the run is ready on the desk that the lines before it leave. -/
def Desk.ReadyRun : Desk → List CString → Prop
  | _, [] => True
  | δ, line :: lines => δ.Ready line ∧ Desk.ReadyRun (δ.step line).1 lines

instance Desk.decideReadyRun : (δ : Desk) → (lines : List CString) → Decidable (δ.ReadyRun lines)
  | _, [] => isTrue trivial
  | δ, line :: lines =>
    have := Desk.decideReadyRun (δ.step line).1 lines
    inferInstanceAs (Decidable (δ.Ready line ∧ Desk.ReadyRun (δ.step line).1 lines))

/-! ### What the shell shows -/

/-- The shell stands for the desk. -/
structure Shows (s : Sys) (δ : Desk) : Prop where
  dir : s.term.currentDir = δ.dir
  store : s.fs.store = δ.store
  color : s.term.currentColor = δ.color
  inv : StoreInv s.fs
  path : AbsPath δ.dir
  noNul : (0 : Byte) ∉ δ.dir

/-- A command ends, with the new desk and what it draws. -/
def Answers (s : Sys) (r : Except Fault Sys) (d : Desk × List Draw) : Prop :=
  ∃ s', r = .ok s' ∧ Shows s' d.1 ∧ s'.vga = paint s.vga d.2

@[simp] theorem paint_nil (v : Vga) : paint v [] = v := rfl

theorem paint_cons (v : Vga) (d : Draw) (ds : List Draw) : paint v (d :: ds) = paint (d.on v) ds := rfl

theorem paint_text (v : Vga) (cs : List Byte) :
    paint v [.text cs] = putChars v cs := by rw [paint_cons, paint_nil, Draw.on]

theorem paint_append (v : Vga) (ds es : List Draw) : paint v (ds ++ es) = paint (paint v ds) es :=
    List.foldl_append

section Answers

variable {s : Sys} {δ δ' : Desk} {line : List Byte}

theorem printf_text {format text : List Byte} {args : List Arg}
    (h : printfChars format args = .ok text) (s : Sys) :
    s.printf format args = .ok (s.withVga (putChars s.vga text)) := by
  rw [Sys.printf, vgaPrintf, h]
  rfl

/-- `%s` prints its argument. -/
theorem printfChars_string (text : List Byte) : printfChars (str "%s") [.string text] = .ok text := by
  have hchars : printfChars (str "%s") [.string text] = .ok (text ++ []) := rfl
  rwa [List.append_nil] at hchars

theorem printfChars_line (text : List Byte) :
    printfChars (str "%s\n") [.string text] = .ok (text ++ [newline]) := rfl

theorem Shows.withVga (h : Shows s δ) (v : Vga) :
    Shows (s.withVga v) δ := ⟨h.dir, h.store, h.color, h.inv, h.path, h.noNul⟩

theorem Shows.withFs {fs : FS} {σ : Store} (h : Shows s δ) (hσ : fs.store = σ) (hinv : StoreInv fs) :
    Shows (s.withFs fs) { δ with store := σ } := ⟨h.dir, hσ, h.color, hinv, h.path, h.noNul⟩

theorem Shows.withDir {dir : List Byte} (h : Shows s δ) (hp : AbsPath dir) (h0 : (0 : Byte) ∉ dir) :
    Shows (s.withDir dir) { δ with dir := dir } := ⟨rfl, h.store, h.color, h.inv, hp, h0⟩

-- the new console is a variable here: it must not be computed when this is applied
theorem Shows.draws {v : Vga} {d : Draw} (h : Shows s δ) (hv : v = d.on s.vga) :
    Answers s (.ok (s.withVga v)) (δ, [d]) :=
  ⟨_, rfl, h.withVga v, hv⟩

theorem Draw.on_text (v : Vga) (cs : List Byte) : putChars v cs = (Draw.text cs).on v := by rw [Draw.on]

theorem Draw.on_clear (v : Vga) : vgaClear v = Draw.clear.on v := by rw [Draw.on]

/-- A command that prints. -/
theorem Shows.prints (h : Shows s δ) {format text : List Byte} {args : List Arg}
    (hf : printfChars format args = .ok text) : Answers s (s.printf format args) (δ, [.text text]) := by
  rw [printf_text hf]
  exact h.draws (Draw.on_text _ _)

/-- One command after another. -/
theorem Answers.bind {r : Except Fault Sys} {f : Sys → Except Fault Sys} {ds es : List Draw}
    (h : Answers s r (δ, ds))
    (hf : ∀ t, Shows t δ → Answers t (f t) (δ', es)) : Answers s (r.bind f) (δ', ds ++ es) := by
  obtain ⟨t, rfl, ht, hv⟩ := h
  obtain ⟨u, hu, hu', hv'⟩ := hf t ht
  exact ⟨u, hu, hu', by rw [hv', hv, paint_append]⟩

theorem Shows.printfs {calls : List (List Byte × List Arg)} {texts : List (List Byte)}
    (hcalls : calls.map (fun c => printfChars c.1 c.2) = texts.map .ok) (h : Shows s δ) :
    Answers s (s.printfs calls) (δ, texts.map .text) := by
  induction calls generalizing s texts with
  | nil =>
    obtain rfl : texts = [] := List.map_eq_nil_iff.mp hcalls.symm
    exact ⟨s, rfl, h, rfl⟩
  | cons call calls ih =>
    cases texts with
    | nil => exact absurd hcalls (List.cons_ne_nil _ _)
    | cons text texts =>
      rw [List.map_cons, List.map_cons, List.cons_eq_cons] at hcalls
      exact (h.prints hcalls.1).bind fun t ht => ih hcalls.2 ht

theorem Shows.showColors {colors : List (UInt8 × List Byte)} (hc : ∀ c ∈ colors, printfChars c.2 [] = .ok c.2)
    (h : Shows s δ) :
    Answers s (s.showColors colors) (δ, colors.flatMap fun c => [.color c.1, .text c.2]) := by
  induction colors generalizing s with
  | nil => exact ⟨s, rfl, h, rfl⟩
  | cons c colors ih =>
    have hset := h.draws (d := .color c.1) rfl
    have hprint := hset.bind fun t ht => ht.prints (hc c List.mem_cons_self)
    exact hprint.bind fun t ht => ih (fun c' hc' => hc c' (List.mem_cons_of_mem c hc')) ht

/-- The reply of the commands that change the file system. -/
theorem Shows.reply {fs' : FS} {r : Store × Int} {text : List Byte} (h : Shows s δ) (hσ : fs'.store = r.1)
    (hinv : StoreInv fs') (htext : printfChars text [] = .ok text) :
    Answers s (if r.2 < 0 then (s.withFs fs').printf text [] else .ok (s.withFs fs')) (δ.change r text) := by
  have hs := h.withFs hσ hinv
  unfold Desk.change complain
  by_cases hr : r.2 < 0
  · rw [if_pos hr, if_pos hr]
    exact hs.prints htext
  · rw [if_neg hr, if_neg hr]
    exact ⟨_, rfl, hs, rfl⟩

/-! ### Paths -/

theorem length_lt_of_le_buffer {n : ℕ} (h : n ≤ terminalBufferSize - 1) : n < terminalBufferSize :=
  Nat.lt_of_le_sub_one (by decide) h

theorem nul_not_mem_firstArg (h0 : (0 : Byte) ∉ line) : (0 : Byte) ∉ firstArg line := fun h =>
  h0 ((List.dropWhile_suffix _).subset ((List.dropWhile_suffix _).subset ((List.takeWhile_prefix _).subset h)))

/-- **Built paths are absolute** and their components fit, if they fit as a whole. -/
theorem absPath_fullPathOf {dir a : List Byte} (hd : AbsPath dir) (ha : a.length < maxFilename)
    (hlen : (fullPathOf dir a).length < maxFilename * 2) : AbsPath (fullPathOf dir a) := by
  refine ⟨head_fullPath hd.1, hlen, ?_⟩
  have harg : PathFits a := fun c hc => lt_of_le_of_lt (segs_length_le hc) ha
  by_cases habs : a.head? = some slash
  · rwa [fullPathOf, if_pos habs]
  · intro c hc
    rw [components_fullPath hd.1 habs] at hc
    rcases List.mem_append.mp hc with hc | hc
    · exact hd.2.2 c hc
    · exact harg c hc

/-- What the commands that build a path start from. -/
theorem Shows.path_ok (h : Shows s δ) (h0 : (0 : Byte) ∉ line) (hlen : line.length < terminalBufferSize)
    (hroom : PathRoom δ.dir line) (hneeds : needsPath (commandOf line) (firstArg line) = true) :
    AbsPath (δ.path line) ∧ (0 : Byte) ∉ δ.path line ∧
      buildPath s.term.currentDir (firstArg line) = .ok (δ.path line) := by
  obtain ⟨arg2, ha⟩ := parseArgs_total hlen
  have hfits := hroom _ (builtPath_of ha hneeds)
  refine ⟨absPath_fullPathOf h.path (lt_of_le_of_lt (length_firstArg line) hlen) hfits,
    nul_not_mem_fullPathOf h.noNul (nul_not_mem_firstArg h0), ?_⟩
  rw [h.dir, buildPath, fit_of_lt hfits]
  rfl

/-! ### The commands -/

section Commands

variable (h : Shows s δ) (h0 : (0 : Byte) ∉ line) (hlen : line.length < terminalBufferSize)
  (hroom : PathRoom δ.dir line)
include h h0 hlen hroom

theorem ls_answers (hc : commandOf line = .ls) : Answers s (lsCommand s line) (δ.ls line) := by
  obtain ⟨arg2, ha⟩ := parseArgs_total hlen
  have hdot : strcmp (firstArg line) (str ".") = 0 ↔ firstArg line = str "." :=
    strcmp_eq_zero (nul_not_mem_firstArg h0) (by decide)
  -- the listed path, and the buffer it is in
  have hpath : AbsPath (δ.lsPath line) ∧ (0 : Byte) ∉ δ.lsPath line ∧
      (if firstArg line = [] ∨ strcmp (firstArg line) (str ".") = 0 then fit .fullPath (maxFilename * 2)
        s.term.currentDir else buildPath s.term.currentDir (firstArg line)) = .ok (δ.lsPath line) := by
    rw [Desk.lsPath]
    by_cases hcur : firstArg line = [] ∨ firstArg line = str "."
    · rw [if_pos hcur, if_pos (hcur.imp_right hdot.mpr), h.dir, fit_of_lt h.path.2.1]
      exact ⟨h.path, h.noNul, rfl⟩
    · rw [if_neg hcur, if_neg (fun hc => hcur (hc.imp_right hdot.mp))]
      refine h.path_ok h0 hlen hroom ?_
      rw [hc, needsPath, decide_eq_true_eq, Ne, Ne, hdot]
      exact not_or.mp hcur
  obtain ⟨habs, h0p, hfull⟩ := hpath
  have hlist := fsListDir_store h.inv h0p habs.2.2 (n := maxFiles * (maxFilename + 2)) (by decide) (by decide)
  rw [h.store] at hlist
  simp only [lsCommand, ha, Except.bind, hfull, hlist, Desk.ls]
  by_cases hneg : (δ.store.list (δ.lsPath line) (maxFiles * (maxFilename + 2))).1 < 0
  · rw [if_pos hneg, if_pos hneg]
    exact h.prints (by decide +kernel)
  · rw [if_neg hneg, if_neg hneg]
    exact h.prints (printfChars_string _)

theorem cd_answers (hc : commandOf line = .cd) : Answers s (cdCommand s line) (δ.cd line) := by
  obtain ⟨arg2, ha⟩ := parseArgs_total hlen
  rw [cdCommand_eq, ha, Except.bind, Desk.cd]
  simp only
  by_cases hne : firstArg line = []
  · rw [if_pos hne, if_pos hne]
    exact ⟨_, rfl, h.withDir (by decide) (by decide), rfl⟩
  rw [if_neg hne, if_neg hne]
  obtain ⟨habs, h0p, -⟩ := h.path_ok h0 hlen hroom (by rw [hc, needsPath, decide_eq_true_eq]; exact hne)
  have hcd : cdTo s.fs δ.dir (firstArg line) = .ok (if (s.fs.table.walk 0 (components (δ.path line))).any
      (fun i => decide ((s.fs.files i).type = .dir)) then some (δ.path line) else none) :=
    cdTo_of_fits h0p habs.2.1 habs.2.2
  rw [h.dir, hcd, Except.bind]
  have hnode : δ.store.nodeAt (components (δ.path line)) = some .dir ↔
      (s.fs.table.walk 0 (components (δ.path line))).any
        (fun i => decide ((s.fs.files i).type = .dir)) = true := by
    rw [← h.store, nodeAt_store h.inv.inv nonempty_components, Option.map_eq_some_iff, Option.any_eq_true]
    simp only [decide_eq_true_eq, node_eq_dir]
  by_cases hdir : δ.store.nodeAt (components (δ.path line)) = some .dir
  · rw [if_pos hdir, if_pos (hnode.mp hdir), Option.elim_some]
    exact ⟨_, rfl, h.withDir habs h0p, rfl⟩
  · rw [if_neg hdir, if_neg (fun hw => hdir (hnode.mpr hw)), Option.elim_none]
    exact h.prints (by decide +kernel)

theorem mkdir_answers (hc : commandOf line = .mkdir) : Answers s (mkdirCommand s line) (δ.mkdir line) := by
  obtain ⟨arg2, ha⟩ := parseArgs_total hlen
  simp only [mkdirCommand, ha, Except.bind, Desk.mkdir]
  by_cases hne : firstArg line = []
  · rw [if_pos hne, if_pos hne]
    exact h.prints (by decide +kernel)
  rw [if_neg hne, if_neg hne]
  obtain ⟨habs, h0p, hfull⟩ := h.path_ok h0 hlen hroom (by rw [hc, needsPath, decide_eq_true_eq]; exact hne)
  obtain ⟨fs', hrun, hσ, hinv⟩ := createAt_store h.inv h0p habs FileType.dir_ne_none
  rw [h.store] at hrun hσ
  have hmk : fsMkdir s.fs (δ.path line) = .ok ((δ.store.add .dir (δ.path line)).2, fs') := hrun
  simp only [hfull, hmk]
  exact h.reply hσ hinv (by decide +kernel)

theorem rm_answers (hc : commandOf line = .rm)
    (hnear : firstArg line ≠ [] → δ.store.nearAt (δ.path line) = true) :
    Answers s (rmCommand s line) (δ.rm line) := by
  obtain ⟨arg2, ha⟩ := parseArgs_total hlen
  simp only [rmCommand, ha, Except.bind, Desk.rm]
  by_cases hne : firstArg line = []
  · rw [if_pos hne, if_pos hne]
    exact h.prints (by decide +kernel)
  rw [if_neg hne, if_neg hne]
  obtain ⟨habs, h0p, hfull⟩ := h.path_ok h0 hlen hroom (by rw [hc, needsPath, decide_eq_true_eq]; exact hne)
  have hfits : PathFits (CString.mk _ h0p).val := habs.2.2
  obtain ⟨fs', hrun, hσ, hinv⟩ := fsDeleteFile_store h.inv hfits (h.store ▸ hnear hne)
  rw [h.store] at hrun hσ
  simp only [hfull, hrun]
  exact h.reply hσ hinv (by decide +kernel)

theorem touch_answers (hc : commandOf line = .touch)
    (hname : firstArg line ≠ [] → namePart (δ.path line) ≠ []) :
    Answers s (touchCommand s line) (δ.touch line) := by
  obtain ⟨arg2, ha⟩ := parseArgs_total hlen
  simp only [touchCommand, ha, Except.bind, Desk.touch]
  by_cases hne : firstArg line = []
  · rw [if_pos hne, if_pos hne]
    exact h.prints (by decide +kernel)
  rw [if_neg hne, if_neg hne]
  obtain ⟨habs, h0p, hfull⟩ := h.path_ok h0 hlen hroom (by rw [hc, needsPath, decide_eq_true_eq]; exact hne)
  have hsl := habs.slash_mem
  have hd : (dirPart (δ.path line)).length < maxFilename * 2 := lt_of_le_of_lt (dirPart_length _) habs.2.1
  have hpf := dirPart_fits hsl habs.2.2
  have hfit : fit .parentPath (maxFilename * 2) ((δ.path line).take (lastSlash (δ.path line))) =
      .ok (dirPart (δ.path line)) :=
    fit_of_lt hd
  have hparse : fsParsePath s.fs (if dirPart (δ.path line) = [] then [slash] else dirPart (δ.path line)) =
      .ok (code (s.fs.table.walk 0 (components (dirPart (δ.path line))))) := by
    rw [fsParsePath_of_fits _ (nul_not_mem_parentPath (nul_not_mem_dirPart h0p))
      (by rwa [PathFits, parentPath_components]), parentPath_components]
  have hfind : δ.store.find (components (δ.path line)).dropLast = s.fs.table.walk 0
      (components (dirPart (δ.path line))) := by
    rw [components_split hsl (hname hne), List.dropLast_concat, ← h.store,
      find_store h.inv.inv nonempty_components]
  simp only [hfull, hfit, hparse, hfind]
  obtain ⟨fs', hrun, hσ, hinv⟩ := createAt_store h.inv h0p habs FileType.file_ne_none
  rw [createAt_of_fits h0p (List.ne_nil_of_mem hsl) hd (namePart_fits hsl habs.2.2) hpf (hname hne),
    h.store] at hrun
  rw [h.store] at hσ
  cases hw : s.fs.table.walk 0 (components (dirPart (δ.path line))) with
  | none =>
    rw [if_pos rfl, code_none, if_neg (by decide)]
    exact h.prints (by decide +kernel)
  | some p =>
    rw [hw] at hrun
    have hcreate : fsCreateFile s.fs ((δ.path line).drop (lastSlash (δ.path line) + 1)) .file p =
        .ok ((δ.store.add (.file []) (δ.path line)).2, fs') := hrun
    rw [if_neg (Option.some_ne_none p), code_some, if_pos (Int.natCast_nonneg p), Int.toNat_natCast, hcreate]
    exact h.reply hσ hinv (by decide +kernel)

end Commands

/-- **One command** of the shell is the command of the desk. -/
theorem runCommand_answers {line : CString} (h : Shows s δ) (hr : δ.Ready line) (hne : line.val ≠ []) :
    Answers s (runCommand s line.val) (δ.step line) := by
  have hlen := length_lt_of_le_buffer hr.fits
  rw [Desk.step, if_neg hne, runCommand]
  cases hc : commandOf line.val with
  | help => exact h.printfs (by decide +kernel)
  | clear => exact h.draws (Draw.on_clear _)
  | exit => exact absurd hc hr.stays
  | testFormatting => exact h.printfs (by decide +kernel)
  | testColors =>
    have htitle : printfChars (str "\nAvailable colors:\n") [] =
      .ok (str "\nAvailable colors:\n") := by decide +kernel
    exact (h.prints htitle).bind fun t ht => ht.showColors (by decide +kernel)
  | version => exact h.prints (by decide +kernel)
  | color => exact ⟨_, rfl, ⟨h.dir, h.store, by rw [← h.color]; rfl, h.inv, h.path, h.noNul⟩,
    by rw [← h.color]; rfl⟩
  | pwd => exact h.prints (h.dir ▸ printfChars_line _)
  | ls => exact ls_answers h line.noNul hlen hr.room hc
  | cd => exact cd_answers h line.noNul hlen hr.room hc
  | mkdir => exact mkdir_answers h line.noNul hlen hr.room hc
  | touch => exact touch_answers h line.noNul hlen hr.room hc (hr.name hc)
  | rm => exact rm_answers h line.noNul hlen hr.room hc (hr.near hc)
  | unknown =>
    show Answers s (s.printf (str "Unknown command: %s\n") [.string line.val]) _
    rw [printf_unknown]
    exact h.draws (Draw.on_text _ _)

/-- **One line** in the input buffer. -/
theorem executeLine_answers {line : CString} (h : Shows s δ) (hr : δ.Ready line) :
    Answers s (executeLine s line) (δ.step line) := by
  have htyped : Shows (typed s line.val) δ := ⟨h.dir, h.store, h.color, h.inv, h.path, h.noNul⟩
  rw [executeLine_eq s (length_lt_of_le_buffer hr.fits)]
  by_cases hne : line.val = []
  · rw [if_pos hne, Desk.step, if_pos hne]
    exact ⟨_, rfl, htyped, rfl⟩
  · rw [if_neg hne]
    obtain ⟨s', hs', h', hv⟩ := runCommand_answers htyped hr hne
    exact ⟨s', hs', h', hv⟩

/-- **A run** of the shell is the run of the desk. -/
theorem desk_run {lines : List CString} (h : Shows s δ) (hr : δ.ReadyRun lines) :
    ∃ s', exec executeLine s lines = .ok s' ∧ Shows s' (after Desk.step δ lines) ∧
      s'.vga = paint s.vga (outputs Desk.step δ lines).flatten := by
  induction lines generalizing s δ with
  | nil => exact ⟨s, rfl, h, rfl⟩
  | cons line lines ih =>
    obtain ⟨s₁, hs₁, h₁, hv₁⟩ := executeLine_answers h hr.1
    obtain ⟨s', hs', h', hv'⟩ := ih h₁ hr.2
    exact ⟨s', exec_cons_eq_ok.mpr ⟨s₁, hs₁, hs'⟩, h',
      by rw [hv', hv₁, outputs_cons, List.flatten_cons, paint_append]⟩

end Answers

theorem start_shows (mem : Int → UInt16) : ∃ s, start mem = .ok s ∧ Shows s .init := by
  unfold start terminalInit
  rw [printf_prompt]
  exact ⟨_, rfl, rfl, fsInit_store _, rfl, fsInit_storeInv _, by decide, by decide⟩

/-- **The shell refines the desk**: over any earlier contents of the text memory, for every run of command lines
that are ready on the desk, no command faults, and the shell ends with the directory, the store and the colour
of the desk and with a screen on which exactly the drawings of the desk have been made. -/
theorem shell_refines (mem : Int → UInt16) (lines : List CString) (hready : Desk.init.ReadyRun lines) :
    ∃ s₀ s, start mem = .ok s₀ ∧ exec executeLine s₀ lines = .ok s ∧
      s.term.currentDir = (after Desk.step .init lines).dir ∧ s.fs.store = (after Desk.step .init lines).store ∧
      s.term.currentColor = (after Desk.step .init lines).color ∧
      s.vga = paint s₀.vga (outputs Desk.step .init lines).flatten := by
  obtain ⟨s₀, hs₀, h₀⟩ := start_shows mem
  obtain ⟨s, hrun, h, hv⟩ := desk_run h₀ hready
  exact ⟨s₀, s, hs₀, hrun, h.dir, h.store, h.color, hv⟩

/-- A directory is made and entered, a file and a directory are listed in it, the file goes and `..` is not
known. -/
theorem shell_refines_sample : ∃ s₀ s, start (fun _ => 0) = .ok s₀ ∧
    exec executeLine s₀ [lit "mkdir a", lit "cd a", lit "touch b", lit "mkdir c", lit "ls",
      lit "rm b", lit "color", lit "cd ..", lit "pwd"] = .ok s ∧
    s.term.currentDir = str "/a" ∧ s.fs.store = [⟨[], .dir⟩, ⟨[str "a"], .dir⟩, ⟨[str "a", str "c"], .dir⟩] ∧
    s.vga = putChars (putChars (vgaSetColor (putChars s₀.vga (str "b\nc/\n")) 11 vgaColorBlack)
      (str "Error: Directory not found\n")) (str "/a\n") := by
  obtain ⟨s₀, s, hs₀, hrun, hdir, hstore, -, hv⟩ := shell_refines (fun _ => 0)
    [lit "mkdir a", lit "cd a", lit "touch b", lit "mkdir c", lit "ls", lit "rm b", lit "color",
      lit "cd ..", lit "pwd"]
    (by decide +kernel)
  have hend : (after Desk.step .init
    [lit "mkdir a", lit "cd a", lit "touch b", lit "mkdir c", lit "ls", lit "rm b",
      lit "color", lit "cd ..", lit "pwd"]).dir = str "/a" ∧
    (after Desk.step .init [lit "mkdir a", lit "cd a", lit "touch b", lit "mkdir c", lit "ls",
      lit "rm b", lit "color",
      lit "cd ..", lit "pwd"]).store = [⟨[], .dir⟩, ⟨[str "a"], .dir⟩, ⟨[str "a", str "c"], .dir⟩] := by
    decide +kernel
  have hdraws : (outputs Desk.step .init
    [lit "mkdir a", lit "cd a", lit "touch b", lit "mkdir c", lit "ls", lit "rm b",
      lit "color", lit "cd ..", lit "pwd"]).flatten =
      [.text (str "b\nc/\n"), .color 11, .text (str "Error: Directory not found\n"), .text (str "/a\n")] := by
    decide +kernel
  refine ⟨s₀, s, hs₀, hrun, hdir.trans hend.1, hstore.trans hend.2, ?_⟩
  rw [hv, hdraws, paint_cons, paint_cons, paint_cons, paint_text]
  rfl

end FoxOS
