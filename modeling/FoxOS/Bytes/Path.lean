import FoxOS.Fs.Path
import FoxOS.Lib.StrMem
import FoxOS.Term.Faults

/-!
# FoxOS.Bytes.Path — strings and paths on bytes (`src/fs.c`, `src/terminal.c`)

The models of the shell and of path resolution compute on strings.  Here is the same code on a memory of bytes,
with its pointers: the string routines, `parse_args`, `build_path`, `get_next_path_component` and
`fs_parse_path`.  Each one leaves in the memory what its model says and returns what its model returns.  The
loops have fuel; more than the length of the strings is enough.

The names in the file table are arrays of bytes in both versions.
-/

namespace FoxOS

open ByteMem StrMem

namespace Bytes

/-! ### The code -/

/-- A character, and not the delimiter. -/
def inWord (d : Byte) : Byte → Bool := fun c => decide (c ≠ 0 ∧ c ≠ d)

def strlen (fuel str : ℕ) (m : Mem) : Option ℕ := (skip (fun c => decide (c ≠ 0)) m fuel str).map (· - str)

def strcpy (fuel dest src : ℕ) (m : Mem) : Option Mem :=
  (copyWhile (fun c => decide (c ≠ 0)) fuel dest src m).map fun r => Function.update r.mem r.dst 0

def strcat (fuel dest src : ℕ) (m : Mem) : Option Mem :=
  (strlen fuel dest m).bind fun n => strcpy fuel (dest + n) src m

/-- `strcmp` of two arrays. -/
def strcmp : ℕ → (ℕ → Byte) → (ℕ → Byte) → Option Int
  | 0, _, _ => none
  | fuel + 1, s1, s2 =>
    if s1 0 ≠ 0 ∧ s1 0 = s2 0 then strcmp fuel (fun i => s1 (i + 1)) (fun i => s2 (i + 1))
    else some ((s1 0).toNat - (s2 0).toNat)

/-- `strncmp` of two arrays; `n` counts down. -/
def strncmp : ℕ → (ℕ → Byte) → (ℕ → Byte) → Int
  | 0, _, _ => 0
  | n + 1, s1, s2 =>
    if s1 0 ≠ 0 ∧ s1 0 = s2 0 then strncmp n (fun i => s1 (i + 1)) (fun i => s2 (i + 1))
    else (s1 0).toNat - (s2 0).toNat

def parseArgs (fuel cmd arg1 arg2 : ℕ) (m : Mem) : Option Mem :=
  (skip (inWord space) m fuel cmd).bind fun cmd =>
    (skip (fun c => decide (c = space)) m fuel cmd).bind fun cmd =>
      (copyWhile (inWord space) fuel arg1 cmd m).bind fun r =>
        let m := Function.update r.mem r.dst 0
        (skip (fun c => decide (c = space)) m fuel r.src).bind fun cmd => strcpy fuel arg2 cmd m

/-- `root` is the address of the literal `"/"`. -/
def buildPath (fuel currentDir root relativePath fullPath : ℕ) (m : Mem) : Option Mem :=
  if m relativePath = slash then strcpy fuel fullPath relativePath m
  else
    (strcpy fuel fullPath currentDir m).bind fun m =>
      (if m (currentDir + 1) ≠ 0 then strcat fuel fullPath root m else some m).bind fun m =>
        strcat fuel fullPath relativePath m

/-- The pointer to the rest of the path, `none` for `NULL`. -/
def getNextPathComponent (fuel path component : ℕ) (m : Mem) : Option (Option ℕ × Mem) :=
  (skip (fun c => decide (c = slash)) m fuel path).bind fun path =>
    (copyWhile (inWord slash) fuel component path m).bind fun r =>
      let m := Function.update r.mem r.dst 0
      some (if m r.src ≠ 0 then some r.src else none, m)

/-- The search loop over the slots. -/
def findEntry (fuel : ℕ) (s : FS) (dir : ℕ) (component : ℕ → Byte) : List ℕ → Option (Option ℕ)
  | [] => some none
  | i :: is =>
    if (s.files i).parentIndex = dir then
      (strcmp fuel (s.files i).name component).bind fun r =>
        if r = 0 then some (some i) else findEntry fuel s dir component is
    else findEntry fuel s dir component is

/-- The `while (path)` loop. -/
def parseLoop (fuel : ℕ) (s : FS) (component : ℕ) : ℕ → ℕ → Option ℕ → Mem → Option (Int × Mem)
  | 0, _, _, _ => none
  | _ + 1, cur, none, m => some (cur, m)
  | n + 1, cur, some path, m =>
    (getNextPathComponent fuel path component m).bind fun r =>
      if r.2 component = 0 then parseLoop fuel s component n cur r.1 r.2
      else
        (findEntry fuel s cur (fun i => r.2 (component + i)) (List.range s.fileCount)).bind fun
          | none => some (-1, r.2)
          | some found => parseLoop fuel s component n found r.1 r.2

/-- `component` is the address of the local buffer. -/
def fsParsePath (fuel : ℕ) (s : FS) (path component : ℕ) (m : Mem) : Option (Int × Mem) :=
  if m path = 0 ∨ m path = slash ∧ m (path + 1) = 0 then some (0, m)
  else parseLoop fuel s component fuel 0 (some path) m

/-! ### The string routines -/

section Strings

variable {m : Mem} {a dst src fuel : ℕ} {s t : List Byte}

theorem takeWhile_of_forall {p q : Byte → Bool} (h : ∀ c ∈ s, p c = q c) :
    s.takeWhile p = s.takeWhile q ∧ s.dropWhile p = s.dropWhile q := by
  induction s with
  | nil => exact ⟨rfl, rfl⟩
  | cons c s ih =>
    obtain ⟨h1, h2⟩ := ih fun d hd => h d (List.mem_cons_of_mem c hd)
    rw [List.takeWhile_cons, List.takeWhile_cons, List.dropWhile_cons, List.dropWhile_cons,
      h c List.mem_cons_self, h1, h2]
    exact ⟨rfl, rfl⟩

/-- In a string the terminator need not be tested. -/
theorem takeWhile_nul {d : Byte} (h0 : (0 : Byte) ∉ s) :
    s.takeWhile (inWord d) = s.takeWhile (fun c => decide (c ≠ d)) ∧
      s.dropWhile (inWord d) = s.dropWhile (fun c => decide (c ≠ d)) :=
  takeWhile_of_forall fun _ hc => decide_eq_decide.mpr (and_iff_right fun h => h0 (h ▸ hc))

theorem takeWhile_all (h0 : (0 : Byte) ∉ s) : s.takeWhile (fun c => decide (c ≠ 0)) = s :=
  List.takeWhile_eq_self_iff.mpr fun _ hc => decide_eq_true fun h => h0 (h ▸ hc)

theorem strlen_spec (h : StrAt m a s) (hf : s.length < fuel) : strlen fuel a m = some s.length := by
  obtain ⟨hrun, -⟩ := skip_spec (p := fun c => decide (c ≠ 0)) (by decide) h hf
  rw [strlen, hrun, takeWhile_all h.nul_not_mem, Option.map_some, Nat.add_sub_cancel_left]

/-- **`strcpy`** stores the string and its terminator, and nothing else. -/
theorem strcpy_spec (h : StrAt m src s) (hapart : dst + s.length ≤ src ∨ src + s.length < dst)
    (hf : s.length < fuel) : strcpy fuel dst src m = some (write m dst (s ++ [0])) := by
  have hall := takeWhile_all h.nul_not_mem
  obtain ⟨hrun, -⟩ := copyWhile_spec (p := fun c => decide (c ≠ 0)) (by decide) h (by rwa [hall]) hf
  rw [hall] at hrun
  rw [strcpy, hrun, Option.map_some, update_eq_write, write_append]

/-- **`strcat`** behind a string just stored makes the longer string. -/
theorem strcat_spec (ht : (0 : Byte) ∉ t) (h : StrAt m src s)
    (hapart : dst + t.length + s.length < src ∨ src + s.length < dst) (hf : t.length < fuel)
    (hf' : s.length < fuel) :
    strcat fuel dst src (write m dst (t ++ [0])) = some (write m dst (t ++ s ++ [0])) := by
  have hsrc : StrAt (write m dst (t ++ [0])) src s := h.congr fun x h1 h2 => write_nul_of_apart (by omega)
  rw [strcat, strlen_spec (strAt_write m dst ht) hf, Option.bind_some, strcpy_spec hsrc (by omega) hf',
    ← write_append m dst t [0], write_write _ _ (by simp), write_append, List.append_assoc]

end Strings

/-! ### `parse_args` and `build_path` -/

section Paths

variable {m : Mem} {fuel : ℕ}

/-- The second argument. -/
def secondArg (line : List Byte) : List Byte := argText (argText line)

/-- **`parse_args`** stores the two arguments in their arrays. -/
theorem parseArgs_spec {cmd arg1 arg2 : ℕ} {line : List Byte} (h : StrAt m cmd line)
    (h1 : arg1 + (firstArg line).length < cmd ∨ cmd + line.length < arg1)
    (h2 : arg2 + (secondArg line).length < cmd ∨ cmd + line.length < arg2) (hf : line.length < fuel) :
    parseArgs fuel cmd arg1 arg2 m =
      some (write (write m arg1 (firstArg line ++ [0])) arg2 (secondArg line ++ [0])) := by
  -- the name of the command, the spaces, the first argument, the spaces, the second argument
  obtain ⟨c1, hs1, hr1⟩ := h.rest.skip (p := inWord space) (by decide) hf
  rw [(takeWhile_nul h.nul_not_mem).2] at hr1
  obtain ⟨c2, hs2, hr2⟩ := hr1.skip (p := fun c => decide (c = space)) (by decide) hf
  have hfirst := (takeWhile_nul (d := space) hr2.str.nul_not_mem).1
  obtain ⟨r3, hs3, hm3, hr3⟩ := hr2.copy (p := inWord space) (by decide) (by rwa [hfirst]) hf
  rw [hfirst] at hm3 hr3
  rw [(takeWhile_nul hr2.str.nul_not_mem).2] at hr3
  obtain ⟨c4, hs4, hr4⟩ := hr3.skip (p := fun c => decide (c = space)) (by decide) hf
  have hsecond := takeWhile_all hr4.str.nul_not_mem
  obtain ⟨r5, hs5, hm5, -⟩ := hr4.copy (p := fun c => decide (c ≠ 0)) (by decide) (by rwa [hsecond]) hf
  rw [hsecond] at hm5
  rw [parseArgs, hs1, Option.bind_some, hs2, Option.bind_some, hs3, Option.bind_some]
  simp only [hm3, hs4, Option.bind_some, strcpy, hs5, Option.map_some, hm5]
  rfl

/-- **`build_path`** stores the full path in its array. -/
theorem buildPath_spec {currentDir root relativePath fullPath : ℕ} {dir rel : List Byte}
    (hd : StrAt m currentDir dir)
    (hne : dir ≠ []) (hroot : StrAt m root [slash]) (hr : StrAt m relativePath rel)
    (h1 : fullPath + (fullPathOf dir rel).length < currentDir ∨ currentDir + dir.length < fullPath)
    (h2 : fullPath + (fullPathOf dir rel).length < root ∨ root + 1 < fullPath)
    (h3 : fullPath + (fullPathOf dir rel).length < relativePath ∨ relativePath + rel.length < fullPath)
    (hf : (fullPathOf dir rel).length < fuel) (hf' : dir.length < fuel) :
    buildPath fuel currentDir root relativePath fullPath m =
      some (write m fullPath (fullPathOf dir rel ++ [0])) := by
  have hhead : m relativePath = slash ↔ rel.head? = some slash := by
    rw [hr.head]
    cases rel with
    | nil => exact iff_of_false (by decide) (by simp)
    | cons c s => rw [List.headD_cons, List.head?_cons, Option.some.injEq]
  rw [buildPath]
  by_cases habs : rel.head? = some slash
  · have hpath : fullPathOf dir rel = rel := if_pos habs
    rw [hpath] at h3 hf ⊢
    rw [if_pos (hhead.mpr habs), strcpy_spec hr (by omega) hf]
  rw [if_neg fun hs => habs (hhead.mp hs)]
  -- the directory, a slash unless it is the root, the relative path
  have hpath : fullPathOf dir rel = dir ++ (if 1 < dir.length then [slash] else []) ++ rel := if_neg habs
  have hlen : (fullPathOf dir rel).length =
      dir.length + (if 1 < dir.length then [slash] else []).length + rel.length := by
    rw [hpath, List.length_append, List.length_append]
  have hpos : 0 < dir.length := List.length_pos_iff.mpr hne
  have hsecond : write m fullPath (dir ++ [0]) (currentDir + 1) ≠ 0 ↔ 1 < dir.length := by
    rw [write_nul_of_apart (by omega)]
    obtain ⟨c, t, rfl⟩ := List.exists_cons_of_ne_nil hne
    rw [Ne, hd.2.2.head_eq_zero_iff, ← List.length_eq_zero_iff, List.length_cons]
    omega
  rw [strcpy_spec hd (by omega) hf', Option.bind_some]
  by_cases hlong : 1 < dir.length
  · rw [if_pos hlong] at hpath hlen
    rw [List.length_singleton] at hlen
    have h0 : (0 : Byte) ∉ dir ++ [slash] := List.not_mem_append hd.nul_not_mem (by decide)
    have hone : [slash].length = 1 := rfl
    have hdir : (dir ++ [slash]).length = dir.length + 1 := List.length_append
    rw [if_pos (hsecond.mpr hlong), strcat_spec hd.nul_not_mem hroot (by omega) hf' (by omega),
      Option.bind_some, strcat_spec h0 hr (by omega) (by omega) (by omega), hpath]
  · rw [if_neg hlong, List.append_nil] at hpath
    rw [if_neg hlong, List.length_nil] at hlen
    rw [if_neg fun hs => hlong (hsecond.mp hs), Option.bind_some,
      strcat_spec hd.nul_not_mem hr (by omega) hf' (by omega), hpath]

end Paths

/-! ### `fs_parse_path` -/

section Resolution

variable {m : Mem} {fuel : ℕ}

/-- **`strcmp`** of a name in its array and a string. -/
theorem strcmp_spec {f g : ℕ → Byte} {n : ℕ} {t : List Byte} (hf : Terminated f n) (h : StrAt g 0 t)
    (hn : n ≤ fuel) : strcmp fuel f g = some (FoxOS.strcmp (cstr f n) t) := by
  induction n generalizing f g t fuel with
  | zero =>
    obtain ⟨i, hi, -⟩ := hf
    exact absurd hi (Nat.not_lt_zero i)
  | succ n ih =>
    obtain ⟨k, rfl⟩ : ∃ k, fuel = k + 1 := ⟨fuel - 1, by omega⟩
    rw [strcmp, cstr, h.head]
    by_cases hf0 : f 0 = 0
    · rw [if_neg fun hc => hc.1 hf0, if_pos hf0, hf0]
      cases t with
      | nil => rfl
      | cons c t => simp [FoxOS.strcmp]
    rw [if_neg hf0]
    cases t with
    | nil => simp [FoxOS.strcmp, hf0]
    | cons c t =>
      rw [List.headD_cons, FoxOS.strcmp]
      by_cases hc : f 0 = c
      · obtain ⟨i, hi, hfi⟩ := hf
        obtain ⟨j, rfl⟩ : ∃ j, i = j + 1 := ⟨i - 1, by grind⟩
        rw [if_pos ⟨hf0, hc⟩, if_pos hc]
        exact ih ⟨j, by omega, hfi⟩ (h.2.2.reindex fun i => rfl) (by omega)
      · rw [if_neg fun h => hc h.2, if_neg hc]

/-- **`strncmp`** likewise. -/
theorem strncmp_spec {f g : ℕ → Byte} {n k : ℕ} {t : List Byte} (hf : Terminated f k) (h : StrAt g 0 t) :
    strncmp n f g = FoxOS.strncmp (cstr f k) t n := by
  induction n generalizing f g t k with
  | zero => rw [strncmp, FoxOS.strncmp]
  | succ n ih =>
    obtain ⟨i, hi, hfi⟩ := hf
    obtain ⟨j, rfl⟩ : ∃ j, k = j + 1 := ⟨k - 1, by omega⟩
    rw [strncmp, cstr, h.head]
    by_cases hf0 : f 0 = 0
    · rw [if_neg fun hc => hc.1 hf0, if_pos hf0, hf0]
      cases t with
      | nil => rfl
      | cons c t => simp [FoxOS.strncmp]
    rw [if_neg hf0]
    cases t with
    | nil => simp [FoxOS.strncmp, hf0]
    | cons c t =>
      rw [List.headD_cons, FoxOS.strncmp]
      by_cases hc : f 0 = c
      · obtain ⟨i, rfl⟩ : ∃ j, i = j + 1 := ⟨i - 1, by grind⟩
        rw [if_pos ⟨hf0, hc⟩, if_pos hc]
        exact ih ⟨i, by omega, hfi⟩ (h.2.2.reindex fun i => rfl)
      · rw [if_neg fun h => hc h.2, if_neg hc]

/-- A string in an array is what `cstr` reads there. -/
theorem cstr_of_strAt {f : ℕ → Byte} {t : List Byte} {n : ℕ} (h : StrAt f 0 t) (hn : t.length < n) :
    Terminated f n ∧ cstr f n = t := by
  induction t generalizing f n with
  | nil =>
    obtain ⟨k, rfl⟩ : ∃ k, n = k + 1 := ⟨n - 1, by omega⟩
    exact ⟨⟨0, hn, h⟩, if_pos h⟩
  | cons c t ih =>
    rw [List.length_cons] at hn
    obtain ⟨k, rfl⟩ : ∃ k, n = k + 1 := ⟨n - 1, by omega⟩
    obtain ⟨⟨i, hi, hfi⟩, hcstr⟩ :=
      ih (f := fun i => f (i + 1)) (h.2.2.reindex fun i => rfl) (Nat.lt_of_succ_lt_succ hn)
    refine ⟨⟨i + 1, by omega, hfi⟩, ?_⟩
    rw [cstr, hcstr, h.2.1, if_neg h.1]

/-- **The search loop** finds the slot that the model finds. -/
theorem findEntry_spec {s : FS} {dir : ℕ} {g : ℕ → Byte} {c : List Byte} {is : List ℕ}
    (hs : ∀ i ∈ is, Terminated (s.files i).name maxFilename) (h : StrAt g 0 c) (hf : maxFilename ≤ fuel) :
    findEntry fuel s dir g is = some (is.find? fun i =>
      decide ((s.files i).parentIndex = dir ∧ FoxOS.strcmp (s.files i).nameStr c = 0)) := by
  induction is with
  | nil => rfl
  | cons i is ih =>
    have ih := ih fun j hj => hs j (List.mem_cons_of_mem i hj)
    have hcmp := strcmp_spec (hs i List.mem_cons_self) h hf
    rw [findEntry, hcmp, List.find?_cons]
    by_cases hdir : (s.files i).parentIndex = dir
    · rw [if_pos hdir, Option.bind_some]
      by_cases hname : FoxOS.strcmp (cstr (s.files i).name maxFilename) c = 0
      · rw [if_pos hname, decide_eq_true ⟨hdir, hname⟩]
      · rw [if_neg hname, ih, decide_eq_false fun h => hname h.2]
    · rw [if_neg hdir, ih, decide_eq_false fun h => hdir h.1]

variable {b n a component : ℕ} {p c : List Byte} {next : Option (List Byte)}

/-- **The scanner** stores the component, and its pointer is at what the model leaves. -/
theorem getNextPathComponent_bytes (h : Rest m b n a p) (hg : FoxOS.getNextPathComponent p = .ok (c, next))
    (hapart : component + maxFilename ≤ b ∨ b + n < component) (hf : n < fuel) :
    c.length < maxFilename ∧ (0 : Byte) ∉ c ∧
      ∃ ptr, getNextPathComponent fuel a component m = some (ptr, write m component (c ++ [0])) ∧
        Option.Rel (Rest (write m component (c ++ [0])) b n) ptr next := by
  obtain ⟨c', hfit, hnext⟩ := bind_ok_iff.mp hg
  obtain ⟨hlen, rfl⟩ := fit_eq_ok.mp hfit
  cases hnext
  obtain ⟨a1, hs1, hr1⟩ := h.skip (p := fun c => decide (c = slash)) (by decide) hf
  obtain ⟨hword, hrest⟩ := takeWhile_nul (d := slash) hr1.str.nul_not_mem
  have hroom := hapart.imp_left fun h => lt_of_lt_of_le (Nat.add_lt_add_left hlen component) h
  rw [← hword] at hroom
  obtain ⟨r, hs2, hm2, hr2⟩ := hr1.copy (p := inWord slash) (by decide) hroom hf
  rw [hword] at hm2 hr2
  rw [hrest] at hr2
  have h0 := fun hm => hr1.str.nul_not_mem ((List.takeWhile_prefix (fun c => decide (c ≠ slash))).subset hm)
  set start := p.dropWhile fun c => decide (c = slash)
  set m' := write m component (start.takeWhile (fun c => decide (c ≠ slash)) ++ [0])
  have hrun : getNextPathComponent fuel a component m =
      some (if m' r.src ≠ 0 then some r.src else none, m') := by
    rw [getNextPathComponent, hs1, Option.bind_some, hs2, Option.bind_some]
    simp only [hm2]
  refine ⟨hlen, h0, _, hrun, ?_⟩
  by_cases hend : start.dropWhile (fun c => decide (c ≠ slash)) = []
  · rw [if_neg (not_not.mpr (hr2.str.head_eq_zero_iff.mpr hend)), if_pos hend]
    exact .none
  · rw [if_pos fun hz => hend (hr2.str.head_eq_zero_iff.mp hz), if_neg hend]
    exact .some hr2

/-- One round of the model's loop, with the test of the pointer behind it. -/
theorem fsParseLoop_round (s : FS) (cur : ℕ) (p : List Byte) :
    fsParseLoop s cur p = (FoxOS.getNextPathComponent p).bind fun r =>
      if r.1 = [] then r.2.elim (.ok (cur : Int)) (fsParseLoop s cur)
      else (FoxOS.findEntry s cur r.1).elim (.ok (-1)) fun i => r.2.elim (.ok (i : Int)) (fsParseLoop s i) := by
  rw [fsParseLoop]
  split
  · rename_i hg
    rw [hg]
    rfl
  · rename_i hg
    rw [hg]
    simp only [Except.bind, Option.elim_none]
    cases FoxOS.findEntry s cur _ <;> rfl
  · rename_i hg
    rw [hg]
    simp only [Except.bind, Option.elim_some]
    cases FoxOS.findEntry s cur _ <;> rfl

/-- Only the `k` bytes at `a` changed. -/
def Inside (a k : ℕ) (m m' : Mem) : Prop := ∀ x, x < a ∨ a + k ≤ x → m' x = m x

theorem inside_write (m : Mem) (a : ℕ) {k : ℕ} {t : List Byte} (h : t.length < k) :
    Inside a k m (write m a (t ++ [0])) :=
  fun _ hx => write_nul_of_apart (by omega)

/-- **The loop** over the path: the model's result, and only the component buffer changed. -/
theorem parseLoop_spec {s : FS} (hs : NamesOk s)
    (hapart : component + maxFilename ≤ b ∨ b + n < component) (hf : n < fuel)
    (hf' : maxFilename ≤ fuel) {k cur : ℕ} {ptr : Option ℕ} {r : Int} (h : Option.Rel (Rest m b n) ptr next)
    (hk : (next.elim 0 fun q => q.length + 1) < k)
    (hrun : next.elim (.ok (cur : Int)) (fsParseLoop s cur) = .ok r) :
    ∃ m', parseLoop fuel s component k cur ptr m = some (r, m') ∧ Inside component maxFilename m m' := by
  induction k generalizing cur ptr next m with
  | zero => exact absurd hk (Nat.not_lt_zero _)
  | succ k ih =>
    cases h with
    | none =>
      cases hrun
      exact ⟨m, rfl, fun _ _ => rfl⟩
    | @some a p h =>
      rw [Option.elim_some] at hk hrun
      rw [fsParseLoop_round] at hrun
      obtain ⟨⟨c, next⟩, hg, hrun⟩ := bind_ok_iff.mp hrun
      obtain ⟨hlen, h0, ptr, hscan, hptr⟩ := getNextPathComponent_bytes h hg hapart hf
      have hstr := strAt_write m component h0
      have hin := inside_write m component hlen
      -- every call of the scanner but the last leaves a shorter path
      have hk' : (next.elim 0 fun q => q.length + 1) < k := by
        cases next with
        | none => exact lt_of_le_of_lt (Nat.zero_le _) (Nat.lt_of_succ_lt_succ hk)
        | some q =>
          have := getNextPathComponent_lt hg
          rw [Option.elim_some]
          omega
      rw [parseLoop, hscan, Option.bind_some]
      by_cases hc : c = []
      · rw [if_pos hc] at hrun
        obtain ⟨m', hloop, hm'⟩ := ih hptr hk' hrun
        rw [if_pos (hstr.head_eq_zero_iff.mpr hc)]
        exact ⟨m', hloop, fun x hx => (hm' x hx).trans (hin x hx)⟩
      rw [if_neg hc] at hrun
      have hfind : findEntry fuel s cur (fun i => write m component (c ++ [0]) (component + i))
        (List.range s.fileCount) = some (FoxOS.findEntry s cur c) :=
        findEntry_spec (fun i hi => hs i (List.mem_range.mp hi))
          (StrAt.reindex (k := component) (by rwa [Nat.zero_add]) fun i => by rw [Nat.add_comm]) hf'
      rw [if_neg fun hz => hc (hstr.head_eq_zero_iff.mp hz), hfind, Option.bind_some]
      cases hfound : FoxOS.findEntry s cur c with
      | none =>
        rw [hfound] at hrun
        cases hrun
        exact ⟨_, rfl, hin⟩
      | some i =>
        rw [hfound, Option.elim_some] at hrun
        obtain ⟨m', hloop, hm'⟩ := ih hptr hk' hrun
        exact ⟨m', hloop, fun x hx => (hm' x hx).trans (hin x hx)⟩

/-- **`fs_parse_path`** returns the model's slot. -/
theorem fsParsePath_spec {s : FS} (hs : NamesOk s) {path : ℕ} {r : Int} (h : StrAt m path p)
    (hapart : component + maxFilename ≤ path ∨ path + p.length < component) (hf : p.length + 1 < fuel)
    (hf' : maxFilename ≤ fuel)
    (hrun : FoxOS.fsParsePath s p = .ok r) :
    ∃ m', fsParsePath fuel s path component m = some (r, m') ∧ Inside component maxFilename m m' := by
  have hroot : (m path = 0 ∨ m path = slash ∧ m (path + 1) = 0) ↔ p = [] ∨ p = [slash] := by
    cases p with
    | nil => exact iff_of_true (Or.inl h) (Or.inl rfl)
    | cons c t =>
      rw [h.2.1, h.2.2.head_eq_zero_iff, or_iff_right h.1, or_iff_right (List.cons_ne_nil c t), List.cons.injEq]
  rw [FoxOS.fsParsePath] at hrun
  rw [fsParsePath]
  by_cases hp : p = [] ∨ p = [slash]
  · rw [if_pos hp] at hrun
    cases hrun
    rw [if_pos (hroot.mpr hp)]
    exact ⟨m, rfl, fun _ _ => rfl⟩
  · rw [if_neg hp] at hrun
    rw [if_neg fun hz => hp (hroot.mp hz)]
    exact parseLoop_spec hs hapart (by omega) hf' (.some h.rest) hf hrun

end Resolution

end Bytes

end FoxOS
