import FoxOS.Bytes.Path
import FoxOS.Fs.Links
import FoxOS.Term.Cd
import FoxOS.Term.Desk
import FoxOS.Term.Dispatch

/-!
# FoxOS.Bytes.Commands — `cd` and `rm` on bytes (`src/terminal.c`)

A `Layout` says where the arrays of `execute_command` stand; no two of them overlap.  The command line is
compared, cut, joined and resolved in these arrays, and where the model of the shell does not fault, the code
ends with its directory, its file table and its console and stores nowhere else (`commands_on_bytes`).  The
console is the one of the shell's model.
-/

namespace FoxOS

open ByteMem StrMem Runs

namespace Bytes

/-! ### The code -/

/-- The arrays of the commands, and the literal `"/"`. -/
inductive Arr
  | inputBuffer | arg1 | arg2 | currentDir | root | fullPath | component
  deriving DecidableEq

def Arr.size : Arr → ℕ
  | .inputBuffer => terminalBufferSize
  | .arg1 | .arg2 | .component => maxFilename
  | .currentDir | .fullPath => maxFilename * 2
  | .root => 2

/-- Where the arrays stand; no two of them overlap. -/
structure Layout where
  pos : Arr → ℕ
  apart : ∀ a b, a ≠ b → pos a + a.size ≤ pos b ∨ pos b + b.size ≤ pos a

/-- The console, the file table and the memory. -/
structure Shell where
  vga : Vga
  fs : FS
  mem : Mem

def Shell.printf (k : Shell) (format : List Byte) : Option Shell :=
  (vgaPrintf k.vga format []).toOption.map fun v => { k with vga := v }

/-- The `cd` branch of `execute_command`. -/
def cdCommand (fuel : ℕ) (l : Layout) (k : Shell) : Option Shell :=
  (parseArgs fuel (l.pos .inputBuffer) (l.pos .arg1) (l.pos .arg2) k.mem).bind fun m =>
    if m (l.pos .arg1) = 0 then (strcpy fuel (l.pos .currentDir) (l.pos .root) m).map fun m =>
      { k with mem := m }
    else
      (buildPath fuel (l.pos .currentDir) (l.pos .root) (l.pos .arg1) (l.pos .fullPath) m).bind fun m =>
        (fsParsePath fuel k.fs (l.pos .fullPath) (l.pos .component) m).bind fun (index, m) =>
          if 0 ≤ index ∧ (k.fs.files index.toNat).type = .dir then
            (strcpy fuel (l.pos .currentDir) (l.pos .fullPath) m).map fun m => { k with mem := m }
          else Shell.printf { k with mem := m } (str "Error: Directory not found\n")

/-- `fs_delete_file`; behind `fs_parse_path` it works on the table alone. -/
def fsDeleteFile (fuel path component : ℕ) (k : Shell) : Option (Int × Shell) :=
  (fsParsePath fuel k.fs path component k.mem).map fun (index, m) =>
    if index ≤ 0 then (-1, { k with mem := m })
    else if InUse k.fs index.toNat then (-1, { k with mem := m })
    else (0, { k with fs := deleted k.fs index.toNat, mem := m })

/-- The `rm` branch. -/
def rmCommand (fuel : ℕ) (l : Layout) (k : Shell) : Option Shell :=
  (parseArgs fuel (l.pos .inputBuffer) (l.pos .arg1) (l.pos .arg2) k.mem).bind fun m =>
    if m (l.pos .arg1) = 0 then Shell.printf { k with mem := m } (str "Error: File/directory name required\n")
    else
      (buildPath fuel (l.pos .currentDir) (l.pos .root) (l.pos .arg1) (l.pos .fullPath) m).bind fun m =>
        (fsDeleteFile fuel (l.pos .fullPath) (l.pos .component) { k with mem := m }).bind fun (result, k) =>
          if result < 0 then k.printf (str "Error: Cannot remove file/directory\n") else some k

/-- A string literal. -/
def literal (t : List Byte) : ℕ → Byte := write (fun _ => 0) 0 (t ++ [0])

/-- The comparison of a branch. -/
def compareLine (fuel : ℕ) (inputBuffer : ℕ → Byte) (c : Command) : Option Int :=
  if c ∈ handlers then some (strncmp c.name.length inputBuffer (literal c.name))
    else strcmp fuel inputBuffer (literal c.name)

/-- The comparisons of `execute_command`, one after another. -/
def firstMatch (fuel : ℕ) (inputBuffer : ℕ → Byte) : List Command → Option Command
  | [] => some .unknown
  | c :: cs => (compareLine fuel inputBuffer c).bind fun r => if r = 0 then some c
    else firstMatch fuel inputBuffer cs

/-- `execute_command`, for the two branches. -/
def executeCommand (fuel : ℕ) (l : Layout) (k : Shell) : Option Shell :=
  (firstMatch fuel (fun i => k.mem (l.pos .inputBuffer + i)) commands).bind fun
    | .cd => cdCommand fuel l k
    | .rm => rmCommand fuel l k
    | _ => none

/-- A line in the input buffer, then its command. -/
def byteLine (fuel : ℕ) (l : Layout) (k : Shell) (line : CString) : Option Shell :=
  executeCommand fuel l { k with mem := write k.mem (l.pos .inputBuffer) (line.val ++ [0]) }

/-! ### What stays in the arrays -/

/-- Nothing changed outside these arrays. -/
def Layout.Only (l : Layout) (as : List Arr) (m m' : Mem) : Prop :=
  ∀ x, (∀ a ∈ as, x < l.pos a ∨ l.pos a + a.size ≤ x) → m' x = m x

/-- The directory stands in its array, and the literal where it belongs. -/
structure Layout.Holds (l : Layout) (m : Mem) (dir : List Byte) : Prop where
  str : StrAt m (l.pos .currentDir) dir
  ne : dir ≠ []
  fits : dir.length < maxFilename * 2
  root : StrAt m (l.pos .root) [slash]

/-- The arrays that the commands store into. -/
def commandArrays : List Arr := [.arg1, .arg2, .fullPath, .component, .currentDir]

/-- The code ends where the model ends, in a table whose links are live, and only the arrays of the commands
changed since `m`. -/
def Layout.Follows (l : Layout) (m : Mem) (s : Sys) (r : Option Shell) : Prop :=
  LinksInv s.fs ∧ ∃ m', r = some ⟨s.vga, s.fs, m'⟩ ∧ l.Holds m' s.term.currentDir ∧ l.Only commandArrays m m'

section Commands

variable {fuel : ℕ} {l : Layout} {as bs : List Arr} {m m' m'' : Mem} {dir line rel : List Byte} {s s' : Sys}

theorem Layout.Only.trans (h : l.Only as m m') (h' : l.Only bs m' m'') : l.Only (as ++ bs) m m'' := fun x hx =>
  (h' x fun a ha => hx a (List.mem_append_right as ha)).trans
    (h x fun a ha => hx a (List.mem_append_left bs ha))

theorem Layout.Only.mono (h : l.Only as m m') (hsub : as ⊆ bs) :
    l.Only bs m m' := fun x hx => h x fun a ha => hx a (hsub ha)

theorem Layout.only_write (l : Layout) (a : Arr) (m : Mem) {t : List Byte} (h : t.length < a.size) :
    l.Only [a] m (write m (l.pos a) (t ++ [0])) :=
      fun x hx => inside_write m (l.pos a) h x (hx a List.mem_cons_self)

/-- A string in an array of its own stays. -/
theorem Layout.Only.strAt (h : l.Only as m m') {a : Arr} (ha : a ∉ as) {t : List Byte}
    (ht : StrAt m (l.pos a) t) (hlen : t.length < a.size) : StrAt m' (l.pos a) t :=
  ht.congr fun x h1 h2 => h x fun b hb => by
    have := l.apart a b fun e => ha (e ▸ hb)
    omega

theorem Layout.Holds.keep (H : l.Holds m dir) (h : l.Only as m m') (hd : .currentDir ∉ as) (hr : .root ∉ as) :
    l.Holds m' dir :=
  ⟨h.strAt hd H.str H.fits, H.ne, H.fits, h.strAt hr H.root (by decide)⟩

/-- What the model does behind `parse_args`, on a line that fits the buffer. -/
theorem parseArgs_bind {A : Type} {f : List Byte × List Byte → Except Fault A} {r : A}
    (hlen : line.length < terminalBufferSize)
    (h : (FoxOS.parseArgs line).bind f = .ok r) : ∃ arg2, f (firstArg line, arg2) = .ok r := by
  obtain ⟨arg2, hargs⟩ := parseArgs_total hlen
  rw [hargs] at h
  exact ⟨arg2, h⟩

theorem length_secondArg (line : List Byte) : (secondArg line).length ≤ line.length :=
  (length_argText _).trans (length_argText line)

theorem parseArgs_at (hline : StrAt m (l.pos .inputBuffer) line) (hlen : line.length < terminalBufferSize)
    (hf : maxFilename * 2 < fuel) :
    ∃ m', parseArgs fuel (l.pos .inputBuffer) (l.pos .arg1) (l.pos .arg2) m = some m' ∧
      StrAt m' (l.pos .arg1) (firstArg line) ∧ l.Only [.arg1, .arg2] m m' := by
  have h1 : (firstArg line).length < Arr.arg1.size := (length_firstArg line).trans_lt hlen
  have h2 : (secondArg line).length < Arr.arg2.size := (length_secondArg line).trans_lt hlen
  have ha1 := l.apart .arg1 .inputBuffer (by decide)
  have ha2 := l.apart .arg2 .inputBuffer (by decide)
  have hsize : Arr.inputBuffer.size = 256 := rfl
  have hname : maxFilename = 256 := rfl
  have hbuf : terminalBufferSize = 256 := rfl
  refine ⟨_, parseArgs_spec hline (by omega) (by omega) (by omega), ?_, ?_⟩
  · exact (l.only_write .arg2 _ h2).strAt (by decide)
      (strAt_write m _ (nul_not_mem_firstArg hline.nul_not_mem)) h1
  · exact (l.only_write .arg1 m h1).trans (l.only_write .arg2 _ h2)

theorem buildPath_at (H : l.Holds m dir) (hrel : StrAt m (l.pos .arg1) rel) (hlen : rel.length < maxFilename)
    (hfull : (fullPathOf dir rel).length < maxFilename * 2) (hf : maxFilename * 2 < fuel) :
    buildPath fuel (l.pos .currentDir) (l.pos .root) (l.pos .arg1) (l.pos .fullPath) m =
      some (write m (l.pos .fullPath) (fullPathOf dir rel ++ [0])) := by
  have h1 := l.apart .fullPath .currentDir (by decide)
  have h2 := l.apart .fullPath .root (by decide)
  have h3 := l.apart .fullPath .arg1 (by decide)
  have hfits := H.fits
  simp only [Arr.size] at h1 h2 h3
  exact buildPath_spec H.str H.ne H.root hrel (by omega) (by omega) (by omega) (by omega) (by omega)

theorem fsParsePath_at {fs : FS} (hs : NamesOk fs) {p : List Byte} {r : Int}
    (hpath : StrAt m (l.pos .fullPath) p)
    (hlen : p.length < maxFilename * 2) (hf : maxFilename * 2 < fuel) (hrun : FoxOS.fsParsePath fs p = .ok r) :
    ∃ m', fsParsePath fuel fs (l.pos .fullPath) (l.pos .component) m = some (r, m') ∧
      l.Only [.component] m m' := by
  have hapart := l.apart .component .fullPath (by decide)
  simp only [Arr.size] at hapart
  have hroom : l.pos .component + maxFilename ≤ l.pos .fullPath ∨
    l.pos .fullPath + p.length < l.pos .component := by omega
  obtain ⟨m', hparsed, hin⟩ :=
    fsParsePath_spec hs hpath hroom (show p.length + 1 < fuel by omega) (by omega) hrun
  exact ⟨m', hparsed, fun x hx => hin x (hx .component List.mem_cons_self)⟩

/-- The two tests of the result: of the pointer that `fs_get_file` returns, and of the number. -/
theorem any_slot_iff (fs : FS) (r : Int) :
    (if r < 0 then none else some r.toNat).any (fun i => decide ((fs.files i).type = .dir)) = true ↔
      0 ≤ r ∧ (fs.files r.toNat).type = .dir := by
  by_cases hr : r < 0
  · rw [if_pos hr]
    exact iff_of_false Bool.false_ne_true fun h => absurd h.1 (Int.not_le.mpr hr)
  · rw [if_neg hr, Option.any_some, decide_eq_true_iff, and_iff_right (Int.not_lt.mp hr)]

theorem fullPathOf_ne_nil (h : rel ≠ []) : fullPathOf dir rel ≠ [] := by
  rw [fullPathOf]
  split
  · exact h
  · exact List.append_ne_nil_of_right_ne_nil _ h

/-- Storing the new directory. -/
theorem strcpy_dir {a : Arr} {t : List Byte} (H : l.Holds m dir) (ht : StrAt m (l.pos a) t)
    (ha : a ≠ .currentDir)
    (hsize : t.length < a.size) (hne : t ≠ []) (hlen : t.length < maxFilename * 2)
    (hf : maxFilename * 2 < fuel) :
    ∃ m', strcpy fuel (l.pos .currentDir) (l.pos a) m = some m' ∧ l.Holds m' t ∧ l.Only [.currentDir] m m' := by
  have hapart := l.apart a .currentDir ha
  simp only [show Arr.currentDir.size = maxFilename * 2 from rfl] at hapart
  have honly := l.only_write .currentDir m hlen
  have hroot := honly.strAt (by decide) H.root (by decide)
  exact ⟨_, strcpy_spec ht (by omega) (by omega), ⟨strAt_write m _ ht.nul_not_mem, hne, hlen, hroot⟩, honly⟩

/-- `build_path` and `fs_parse_path`: the path in its array, and its slot. -/
theorem resolve_at {fs : FS} (hs : NamesOk fs) (H : l.Holds m dir) (hrel : StrAt m (l.pos .arg1) rel)
    (hlen : rel.length < maxFilename) (hfull : (fullPathOf dir rel).length < maxFilename * 2)
    (hf : maxFilename * 2 < fuel) {r : Int}
    (hres : FoxOS.fsParsePath fs (fullPathOf dir rel) = .ok r) :
    ∃ m1 m2, buildPath fuel (l.pos .currentDir) (l.pos .root) (l.pos .arg1) (l.pos .fullPath) m = some m1 ∧
      fsParsePath fuel fs (l.pos .fullPath) (l.pos .component) m1 = some (r, m2) ∧ l.Holds m2 dir ∧
      StrAt m2 (l.pos .fullPath) (fullPathOf dir rel) ∧ l.Only [.fullPath, .component] m m2 := by
  have hpath := strAt_write m (l.pos .fullPath) (nul_not_mem_fullPathOf H.str.nul_not_mem hrel.nul_not_mem)
  obtain ⟨m2, hparsed, honly2⟩ := fsParsePath_at hs hpath hfull hf hres
  have honly := (l.only_write .fullPath m hfull).trans honly2
  exact ⟨_, m2, buildPath_at H hrel hlen hfull hf, hparsed, H.keep honly (by decide) (by decide),
    honly2.strAt (by decide) hpath hfull, honly⟩

/-! ### The commands follow their models -/

/-- A reply on the console. -/
theorem printf_follows {format : List Byte} (h : s.printf format [] = .ok s') (hI : LinksInv s.fs)
    (H : l.Holds m' s.term.currentDir) (honly : l.Only commandArrays m m') :
    l.Follows m s' (Shell.printf ⟨s.vga, s.fs, m'⟩ format) := by
  rw [Sys.printf] at h
  obtain ⟨v, hprint, hs'⟩ := bind_ok_iff.mp h
  obtain rfl := Except.ok.inj hs'
  rw [Shell.printf, hprint]
  exact ⟨hI, m', rfl, H, honly⟩

/-- **`cd`** follows its model where that does not fault. -/
theorem cdCommand_follows (hI : LinksInv s.fs) (H : l.Holds m s.term.currentDir)
    (hline : StrAt m (l.pos .inputBuffer) line)
    (hlen : line.length < terminalBufferSize) (hf : maxFilename * 2 < fuel)
    (hrun : FoxOS.cdCommand s line = .ok s') :
    l.Follows m s' (cdCommand fuel l ⟨s.vga, s.fs, m⟩) := by
  rw [cdCommand_eq] at hrun
  obtain ⟨arg2, hrun⟩ := parseArgs_bind hlen hrun
  dsimp only at hrun
  have h1len : (firstArg line).length < maxFilename := (length_firstArg line).trans_lt hlen
  obtain ⟨m1, hparse, harg, honly1⟩ := parseArgs_at hline hlen hf
  have H1 := H.keep honly1 (by decide) (by decide)
  rw [cdCommand, hparse, Option.bind_some]
  by_cases hempty : firstArg line = []
  · -- no argument: the root
    rw [if_pos hempty] at hrun
    obtain rfl := Except.ok.inj hrun
    obtain ⟨m2, hcpy, H2, honly2⟩ := strcpy_dir H1 H1.root (by decide) (by decide) (by decide) (by decide) hf
    rw [if_pos (harg.head_eq_zero_iff.mpr hempty), hcpy]
    exact ⟨hI, m2, rfl, H2, (honly1.trans honly2).mono (by decide)⟩
  rw [if_neg hempty] at hrun
  obtain ⟨found, hcd, hrun⟩ := bind_ok_iff.mp hrun
  obtain ⟨full, hbuild, hcd⟩ := bind_ok_iff.mp hcd
  obtain ⟨hfull, rfl⟩ := fit_eq_ok.mp hbuild
  obtain ⟨slot, hget, hcd⟩ := bind_ok_iff.mp hcd
  obtain ⟨r, hres, hslot⟩ := bind_ok_iff.mp hget
  obtain rfl := Except.ok.inj hslot
  obtain ⟨m2, m3, hbuilt, hparsed, H3, hpath, honly3⟩ := resolve_at hI.names H1 harg h1len hfull hf hres
  have honly := honly1.trans honly3
  rw [if_neg fun hz => hempty (harg.head_eq_zero_iff.mp hz), hbuilt, Option.bind_some, hparsed,
    Option.bind_some]
  dsimp only
  by_cases hdir : 0 ≤ r ∧ (s.fs.files r.toNat).type = .dir
  · rw [if_pos ((any_slot_iff s.fs r).mpr hdir), fit_of_lt hfull] at hcd
    obtain rfl := Except.ok.inj hcd
    rw [Option.elim_some] at hrun
    obtain rfl := Except.ok.inj hrun
    obtain ⟨m4, hcpy, H4, honly4⟩ := strcpy_dir H3 hpath (by decide) hfull (fullPathOf_ne_nil hempty) hfull hf
    rw [if_pos hdir, hcpy]
    exact ⟨hI, m4, rfl, H4, (honly.trans honly4).mono (by decide)⟩
  · rw [if_neg fun h => hdir ((any_slot_iff s.fs r).mp h)] at hcd
    obtain rfl := Except.ok.inj hcd
    rw [Option.elim_none] at hrun
    rw [if_neg hdir]
    exact printf_follows hrun hI H3 (honly.mono (by decide))

/-- `fs_delete_file` behind a path that resolves. -/
theorem fsDeleteFile_spec {path component : ℕ} {k : Shell} {p : List Byte} {r index : Int} {fs : FS}
    (hparsed : fsParsePath fuel k.fs path component k.mem = some (index, m'))
    (hres : FoxOS.fsParsePath k.fs p = .ok index)
    (h : FoxOS.fsDeleteFile k.fs p = .ok (r, fs)) :
      fsDeleteFile fuel path component k = some (r, ⟨k.vga, fs, m'⟩) := by
  obtain ⟨i, hi, h⟩ := bind_ok_iff.mp h
  obtain rfl : i = index := Except.ok.inj (hi.symm.trans hres)
  rw [fsDeleteFile, hparsed, Option.map_some]
  dsimp only
  by_cases hle : i ≤ 0
  · rw [if_pos hle] at h
    cases h
    rw [if_pos hle]
  rw [if_neg hle] at h
  rw [if_neg hle]
  by_cases huse : InUse k.fs i.toNat
  · rw [if_pos huse] at h
    cases h
    rw [if_pos huse]
  · rw [if_neg huse] at h
    cases h
    rw [if_neg huse]
    rfl

/-- **`rm`** follows its model where that does not fault. -/
theorem rmCommand_follows (hI : LinksInv s.fs) (H : l.Holds m s.term.currentDir)
    (hline : StrAt m (l.pos .inputBuffer) line)
    (hlen : line.length < terminalBufferSize) (hf : maxFilename * 2 < fuel)
    (hrun : FoxOS.rmCommand s line = .ok s') :
    l.Follows m s' (rmCommand fuel l ⟨s.vga, s.fs, m⟩) := by
  obtain ⟨arg2, hrun⟩ := parseArgs_bind hlen hrun
  dsimp only at hrun
  have h1len : (firstArg line).length < maxFilename := (length_firstArg line).trans_lt hlen
  obtain ⟨m1, hparse, harg, honly1⟩ := parseArgs_at hline hlen hf
  have H1 := H.keep honly1 (by decide) (by decide)
  rw [rmCommand, hparse, Option.bind_some]
  by_cases hempty : firstArg line = []
  · rw [if_pos hempty] at hrun
    rw [if_pos (harg.head_eq_zero_iff.mpr hempty)]
    exact printf_follows hrun hI H1 (honly1.mono (by decide))
  rw [if_neg hempty] at hrun
  obtain ⟨full, hbuild, hrun⟩ := bind_ok_iff.mp hrun
  obtain ⟨hfull, rfl⟩ := fit_eq_ok.mp hbuild
  obtain ⟨⟨result, fs⟩, hdel, hrun⟩ := bind_ok_iff.mp hrun
  dsimp only at hrun
  have h0 := nul_not_mem_fullPathOf H.str.nul_not_mem harg.nul_not_mem
  have hI' : LinksInv fs := by
    rcases hI.deleteFile (p := ⟨_, h0⟩) hdel with ⟨-, rfl⟩ | ⟨i, hpos, hlt, -, -, rfl⟩
    · exact hI
    · exact hI.deleted hpos hlt
  obtain ⟨r, hres, -⟩ := bind_ok_iff.mp hdel
  obtain ⟨m2, m3, hbuilt, hparsed, H3, -, honly3⟩ := resolve_at hI.names H1 harg h1len hfull hf hres
  have honly : l.Only commandArrays m m3 := (honly1.trans honly3).mono (by decide)
  have hbytes := fsDeleteFile_spec (k := ⟨s.vga, s.fs, m2⟩) hparsed hres hdel
  rw [if_neg fun hz => hempty (harg.head_eq_zero_iff.mp hz), hbuilt, Option.bind_some, hbytes, Option.bind_some]
  dsimp only
  by_cases hneg : result < 0
  · rw [if_pos hneg] at hrun
    rw [if_pos hneg]
    exact printf_follows (s := s.withFs fs) hrun hI' H3 honly
  · rw [if_neg hneg] at hrun
    obtain rfl := Except.ok.inj hrun
    rw [if_neg hneg]
    exact ⟨hI', m3, rfl, H3, honly⟩

/-! ### Lines and sessions -/

/-- **The dispatch** takes the branch that the model takes. -/
theorem firstMatch_spec {f : ℕ → Byte} {n : ℕ} (hterm : Terminated f n) (hn : n ≤ fuel) {cs : List Command}
    (hcs : ∀ c ∈ cs, c ∈ commands) : firstMatch fuel f cs = some (FoxOS.firstMatch (cstr f n) cs) := by
  induction cs with
  | nil => rfl
  | cons c cs ih =>
    have hname := strAt_write (fun _ => 0) 0 (name_clean c (hcs c List.mem_cons_self)).1
    have hcompare : compareLine fuel f c = some (c.compare (cstr f n)) := by
      rw [compareLine, Command.compare]
      by_cases hc : c ∈ handlers
      · rw [if_pos hc, if_pos hc, literal, strncmp_spec hterm hname]
      · rw [if_neg hc, if_neg hc, literal, strcmp_spec hterm hname hn]
    rw [firstMatch, FoxOS.firstMatch, hcompare, Option.bind_some,
      ih fun d hd => hcs d (List.mem_cons_of_mem c hd)]
    by_cases hz : c.compare (cstr f n) = 0
    · rw [if_pos hz, if_pos hz]
    · rw [if_neg hz, if_neg hz]

theorem dispatch_at (hline : StrAt m (l.pos .inputBuffer) line) (hlen : line.length < terminalBufferSize)
    (hf : maxFilename * 2 < fuel) :
      firstMatch fuel (fun i => m (l.pos .inputBuffer + i)) commands = some (commandOf line) := by
  have hstr : StrAt (fun i => m (l.pos .inputBuffer + i)) 0 line :=
    StrAt.reindex (k := l.pos .inputBuffer) (by rwa [Nat.zero_add]) fun i => by rw [Nat.add_comm]
  obtain ⟨hterm, hcstr⟩ := cstr_of_strAt hstr hlen
  have hsize : terminalBufferSize ≤ maxFilename * 2 := by decide
  rw [firstMatch_spec hterm (by omega) fun c hc => hc, hcstr, commandOf_eq]

/-- **One line**. -/
theorem byteLine_follows {line : CString} (hI : LinksInv s.fs) (H : l.Holds m s.term.currentDir)
    (hlen : line.val.length < terminalBufferSize) (hcmd : commandOf line.val = .cd ∨ commandOf line.val = .rm)
    (hf : maxFilename * 2 < fuel) (hrun : runCommand s line.val = .ok s') :
    l.Follows (write m (l.pos .inputBuffer) (line.val ++ [0])) s' (byteLine fuel l ⟨s.vga, s.fs, m⟩ line) := by
  have hline := strAt_write m (l.pos .inputBuffer) line.noNul
  have H1 := H.keep (l.only_write .inputBuffer m hlen) (by decide) (by decide)
  rw [runCommand] at hrun
  rw [byteLine, executeCommand, dispatch_at hline hlen hf, Option.bind_some]
  rcases hcmd with hc | hc
  · rw [hc] at hrun ⊢
    exact cdCommand_follows hI H1 hline hlen hf hrun
  · rw [hc] at hrun ⊢
    exact rmCommand_follows hI H1 hline hlen hf hrun

/-- **A session of `cd` and `rm` commands** on bytes: where the shell's model does not fault, the code behind
every sequence of lines has the model's directory in `current_dir`, its file table and its console, and no byte
outside the arrays changed. -/
theorem commands_on_bytes (hf : maxFilename * 2 < fuel) (hI : LinksInv s.fs) (H : l.Holds m s.term.currentDir)
    {lines : List CString} (hlen : ∀ line ∈ lines, line.val.length < terminalBufferSize)
    (hcmd : ∀ line ∈ lines, commandOf line.val = .cd ∨ commandOf line.val = .rm)
    (hrun : exec (fun s line => runCommand s line.val) s lines = .ok s') :
    ∃ m', lines.foldlM (byteLine fuel l) ⟨s.vga, s.fs, m⟩ = some ⟨s'.vga, s'.fs, m'⟩ ∧
      l.Holds m' s'.term.currentDir ∧ l.Only (.inputBuffer :: commandArrays) m m' := by
  induction lines generalizing s m with
  | nil =>
    obtain rfl := Except.ok.inj hrun
    exact ⟨m, rfl, H, fun _ _ => rfl⟩
  | cons line lines ih =>
    obtain ⟨s1, hstep, hrest⟩ := exec_cons_eq_ok.mp hrun
    have hfits := hlen line List.mem_cons_self
    obtain ⟨hI1, m1, hbytes, H1, honly1⟩ := byteLine_follows hI H hfits (hcmd line List.mem_cons_self) hf hstep
    obtain ⟨m2, hrun2, H2, honly2⟩ := ih hI1 H1 (fun line hl => hlen line (List.mem_cons_of_mem _ hl))
      (fun line hl => hcmd line (List.mem_cons_of_mem _ hl)) hrest
    rw [List.foldlM_cons, hbytes]
    exact ⟨m2, hrun2, H2, (((l.only_write .inputBuffer m hfits).trans honly1).trans honly2).mono (by simp)⟩

/-- Arrays a thousand bytes apart. -/
def sampleLayout : Layout where
  pos
    | .inputBuffer => 0
    | .arg1 => 1000
    | .arg2 => 2000
    | .currentDir => 3000
    | .root => 4000
    | .fullPath => 5000
    | .component => 6000
  apart a b hab := by
    cases a <;> cases b <;> simp only [Arr.size, terminalBufferSize, maxFilename] <;> first | omega |
      exact absurd rfl hab

def sampleMem : Mem := write (write (fun _ => 0) 3000 (str "/" ++ [0])) 4000 (str "/" ++ [0])

theorem commands_on_bytes_sample :
    ∃ k k', [lit "cd d", lit "cd", lit "rm d"].foldlM (byteLine 513 sampleLayout) k = some k' ∧
    k.mem = sampleMem ∧ k'.fs = deleted k.fs 1 ∧ sampleLayout.Holds k'.mem (str "/") := by
  have h : ((fsMkdir (fsInit zeroFiles) (str "/d")).bind fun x =>
      .ok (cdTo x.2 (str "/") (str "d"), FoxOS.fsParsePath x.2 (str "/d"), decide (InUse x.2 1))) =
      .ok (.ok (some (str "/d")), .ok 1, false) := by
    decide +kernel
  obtain ⟨⟨r, fs⟩, hmk, h⟩ := bind_ok_iff.mp h
  simp only [Except.ok.injEq, Prod.mk.injEq] at h
  obtain ⟨hcd, hparse, huse⟩ := h
  have hI : LinksInv fs := (fsInit_linksInv zeroFiles).createAt (by decide) FileType.dir_ne_none hmk
  have hdel : FoxOS.fsDeleteFile fs (str "/d") = .ok (0, deleted fs 1) := by
    rw [FoxOS.fsDeleteFile, hparse]
    exact if_neg (of_decide_eq_false huse)
  let s : Sys := ⟨⟨fun _ => 0, 0, 0, 0, 0, 0, []⟩, zeroTerm, fs⟩
  have h1 : runCommand s (str "cd d") = .ok (s.withDir (str "/d")) := by
    rw [runCommand, show commandOf (str "cd d") = .cd by decide]
    show FoxOS.cdCommand s (str "cd d") = _
    rw [cdCommand_eq, show FoxOS.parseArgs (str "cd d") = .ok (str "d", []) by decide]
    show (cdTo fs (str "/") (str "d")).bind _ = _
    rw [hcd]
    rfl
  have h2 : runCommand (s.withDir (str "/d")) (str "cd") = .ok s := by
    rw [runCommand, show commandOf (str "cd") = .cd by decide]
    show FoxOS.cdCommand (s.withDir (str "/d")) (str "cd") = _
    rw [cdCommand_eq, show FoxOS.parseArgs (str "cd") = .ok ([], []) by decide]
    rfl
  have h3 : runCommand s (str "rm d") = .ok (s.withFs (deleted fs 1)) := by
    rw [runCommand, show commandOf (str "rm d") = .rm by decide]
    show FoxOS.rmCommand s (str "rm d") = _
    rw [FoxOS.rmCommand, show FoxOS.parseArgs (str "rm d") = .ok (str "d", []) by decide]
    show (FoxOS.fsDeleteFile fs (str "/d")).bind _ = _
    rw [hdel]
    rfl
  have H : sampleLayout.Holds sampleMem (str "/") := by
    refine ⟨⟨by decide, by decide, ?_⟩, by decide, by decide, ⟨by decide, by decide, ?_⟩⟩
    · show sampleMem 3001 = 0
      decide
    · show sampleMem 4001 = 0
      decide
  have hrun : exec (fun s line => runCommand s line.val) s [lit "cd d", lit "cd", lit "rm d"] =
      .ok (s.withFs (deleted fs 1)) :=
    (exec_cons_ok h1).trans ((exec_cons_ok h2).trans ((exec_cons_ok h3).trans exec_nil))
  obtain ⟨m', hbytes, H', -⟩ :=
    commands_on_bytes (s := s) (show maxFilename * 2 < 513 by decide) hI H (by decide) (by decide) hrun
  exact ⟨_, _, hbytes, rfl, rfl, H'⟩

end Commands

end Bytes

end FoxOS
