import FoxOS.Lib.Segs
import FoxOS.Lib.ParentTable
import FoxOS.Fs.Model

/-!
# FoxOS.Fs.Path — path resolution is a walk in the parent table

The live slots form a `ParentTable` (`FS.table`), a path is the list of its `components`, and
`fs_parse_path` walks them from slot `0` (`fsParsePath_eq`): the scanner with its pointer, its empty
components and its short cut for `""` and `"/"` adds nothing, except that a component that does not
fit its buffer is a fault.  `Resolves s path i` says that the code returns slot `i`.
-/

namespace FoxOS

open Segs ParentTable

/-- The non-empty components of a path. -/
def components (path : List Byte) : List (List Byte) := segs slash path

theorem components_join (p q : List Byte) : components (p ++ slash :: q) = components p ++ components q :=
  segs_append_sep p q

theorem components_word {c : List Byte} (hs : slash ∉ c) (hne : c ≠ []) : components c = [c] :=
  segs_of_not_mem hs hne

theorem nul_not_mem_join {p q : List Byte} (hp : (0 : Byte) ∉ p) (hq : (0 : Byte) ∉ q) :
    (0 : Byte) ∉ p ++ slash :: q :=
  List.not_mem_append hp (List.not_mem_cons_of_ne_of_not_mem (by decide) hq)

/-- The live slots as a table of parent links. -/
def FS.table (s : FS) : ParentTable (List Byte) where
  size := s.fileCount
  parent := fun i => (s.files i).parentIndex
  label := fun i => (s.files i).nameStr

@[simp] theorem table_size (s : FS) : s.table.size = s.fileCount := rfl
@[simp] theorem table_parent (s : FS) (i : ℕ) : s.table.parent i = (s.files i).parentIndex := rfl
@[simp] theorem table_label (s : FS) (i : ℕ) : s.table.label i = (s.files i).nameStr := rfl

/-- The result code of a search. -/
def code : Option ℕ → Int
  | none => -1
  | some i => i

@[simp] theorem code_none : code none = -1 := rfl
@[simp] theorem code_some (i : ℕ) : code (some i) = i := rfl

/-- The walk along the components, each of which has to fit the component buffer. -/
def walkBuf (s : FS) : ℕ → List (List Byte) → Except Fault Int
  | d, [] => .ok d
  | d, c :: cs =>
    (fit .component maxFilename c).bind fun c =>
      match s.table.child d c with
      | none => .ok (-1)
      | some i => walkBuf s i cs

theorem nul_not_mem_nameStr (f : File) : (0 : Byte) ∉ f.nameStr := nul_not_mem_cstr _ _

/-- The search loop of the code is the lookup of the table. -/
theorem findEntry_eq {c : List Byte} (hc : (0 : Byte) ∉ c) (s : FS) (d : ℕ) :
    findEntry s d c = s.table.child d c := by
  unfold findEntry child
  congr 1
  funext i
  refine decide_eq_decide.mpr ?_
  rw [strcmp_eq_zero (nul_not_mem_nameStr (s.files i)) hc]
  exact Iff.rfl

/-! ### The scanner -/

/-- **One call of the scanner**: nothing is left, or the first component and the rest. -/
theorem getNextPathComponent_spec (path : List Byte) :
    (components path = [] ∧ getNextPathComponent path = .ok ([], none)) ∨
    ∃ c rest, components path = c :: components rest ∧ c ≠ [] ∧ c ⊆ path ∧ rest ⊆ path ∧
      getNextPathComponent path = (fit .component maxFilename c).bind fun c =>
        .ok (c, if rest = [] then none else some rest) := by
  unfold getNextPathComponent components
  rw [← segs_dropWhile path]
  have hsub : path.dropWhile (fun c => decide (c = slash)) ⊆ path := (List.dropWhile_suffix _).subset
  have hhead := List.head?_dropWhile_not (fun c => decide (c = slash)) path
  cases hstart : path.dropWhile (fun c => decide (c = slash)) with
  | nil =>
    left
    exact ⟨segs_nil,
      by simp [fit_of_lt (b := .component) (s := []) (show 0 < maxFilename by decide), Except.bind]⟩
  | cons x t =>
    right
    rw [hstart] at hhead hsub
    have hx : x ≠ slash := by simpa using hhead
    refine ⟨_, _, segs_scan (by simp) (by simpa using hx), by simp [hx], ?_, ?_, rfl⟩
    · exact fun y hy => hsub ((List.takeWhile_prefix _).subset hy)
    · exact fun y hy => hsub ((List.dropWhile_suffix _).subset hy)

theorem getNextPathComponent_error {path : List Byte} {e : Fault}
    (h : getNextPathComponent path = .error e) :
    ∃ c cs, components path = c :: cs ∧ fit .component maxFilename c = .error e := by
  rcases getNextPathComponent_spec path with ⟨-, hg⟩ | ⟨c, rest, hc, -, -, -, hg⟩ <;> rw [h] at hg
  · cases hg
  · refine ⟨c, _, hc, ?_⟩
    cases hf : fit .component maxFilename c with
    | error e' => rw [hf] at hg; cases hg; rfl
    | ok c' => rw [hf] at hg; cases hg

theorem getNextPathComponent_ok {path c : List Byte} {next : Option (List Byte)}
    (h : getNextPathComponent path = .ok (c, next)) :
    (components path = [] ∧ c = [] ∧ next = none) ∨
    ∃ rest, components path = c :: components rest ∧ c ≠ [] ∧ c.length < maxFilename ∧ c ⊆ path ∧
      rest ⊆ path ∧ next = if rest = [] then none else some rest := by
  rcases getNextPathComponent_spec path with ⟨h1, hg⟩ | ⟨c', rest, hc, hne, hsub, hsub', hg⟩ <;>
    rw [h] at hg
  · cases hg; exact Or.inl ⟨h1, rfl, rfl⟩
  · obtain ⟨w, hw, hpair⟩ := bind_ok_iff.mp hg.symm
    obtain ⟨hlen, rfl⟩ := fit_eq_ok.mp hw
    cases hpair
    exact Or.inr ⟨rest, hc, hne, hlen, hsub, hsub', rfl⟩

/-- The loop of the code walks the components that are left. -/
theorem fsParseLoop_eq (s : FS) (cur : ℕ) (path : List Byte) (h0 : (0 : Byte) ∉ path) :
    fsParseLoop s cur path = walkBuf s cur (components path) := by
  fun_induction fsParseLoop s cur path with
  | case1 cur path e h =>
    obtain ⟨c, cs, hc, hf⟩ := getNextPathComponent_error h
    rw [hc, walkBuf, hf]
    rfl
  | case2 cur path h =>
    rcases getNextPathComponent_ok h with ⟨hc, -⟩ | ⟨rest, -, hne, -⟩
    · rw [hc, walkBuf]
    · exact absurd rfl hne
  | case3 cur path c h hne hfind =>
    rcases getNextPathComponent_ok h with ⟨-, h1, -⟩ | ⟨rest, hc, -, hlen, hsub, -, -⟩
    · exact absurd h1 hne
    · rw [findEntry_eq (fun hm => h0 (hsub hm))] at hfind
      simp only [hc, walkBuf, fit_of_lt hlen, Except.bind, hfind]
  | case4 cur path c h hne found hfind =>
    rcases getNextPathComponent_ok h with ⟨-, h1, -⟩ | ⟨rest, hc, -, hlen, hsub, -, hrest⟩
    · exact absurd h1 hne
    · rw [findEntry_eq (fun hm => h0 (hsub hm))] at hfind
      have hr : rest = [] := by by_contra hr; rw [if_neg hr] at hrest; cases hrest
      have hnil : components rest = [] := by rw [hr]; exact segs_nil
      simp only [hc, hnil, walkBuf, fit_of_lt hlen, Except.bind, hfind]
  | case5 cur path next h ih =>
    rcases getNextPathComponent_ok h with ⟨-, -, h1⟩ | ⟨rest, -, hne, -⟩
    · cases h1
    · exact absurd rfl hne
  | case6 cur path c next h hne hfind =>
    rcases getNextPathComponent_ok h with ⟨-, h1, -⟩ | ⟨rest, hc, -, hlen, hsub, -, -⟩
    · exact absurd h1 hne
    · rw [findEntry_eq (fun hm => h0 (hsub hm))] at hfind
      simp only [hc, walkBuf, fit_of_lt hlen, Except.bind, hfind]
  | case7 cur path c next h hne found hfind ih =>
    rcases getNextPathComponent_ok h with ⟨-, h1, -⟩ | ⟨rest, hc, -, hlen, hsub, hsub', hrest⟩
    · exact absurd h1 hne
    · rw [findEntry_eq (fun hm => h0 (hsub hm))] at hfind
      have hr : next = rest := by
        by_cases hr : rest = []
        · rw [if_pos hr] at hrest; cases hrest
        · rw [if_neg hr] at hrest; exact Option.some.inj hrest
      subst hr
      simp only [hc, walkBuf, fit_of_lt hlen, Except.bind, hfind]
      exact ih (fun hm => h0 (hsub' hm))

/-- **Path resolution**: `fs_parse_path` walks the components from the root slot. -/
theorem fsParsePath_eq (s : FS) {path : List Byte} (h0 : (0 : Byte) ∉ path) :
    fsParsePath s path = walkBuf s 0 (components path) := by
  unfold fsParsePath
  by_cases h : path = [] ∨ path = [slash]
  · rw [if_pos h]
    rcases h with rfl | rfl
    · simp [components, walkBuf]
    · simp [components, walkBuf]
  · rw [if_neg h, fsParseLoop_eq s 0 path h0]

/-! ### Results of the walk -/

/-- A walk that does not fault gives the result of the table's walk. -/
theorem walkBuf_ok {s : FS} {cs : List (List Byte)} {d : ℕ} {r : Int} (h : walkBuf s d cs = .ok r) :
    r = code (s.table.walk d cs) := by
  induction cs generalizing d with
  | nil => cases h; rfl
  | cons c cs ih =>
    obtain ⟨c', hf, hw⟩ := bind_ok_iff.mp h
    obtain ⟨-, rfl⟩ := fit_eq_ok.mp hf
    cases hc : s.table.child d c' with
    | none => rw [hc] at hw; cases hw; simp [walk_cons, hc, code]
    | some i => rw [hc] at hw; rw [ih hw, walk_cons, hc]; rfl

/-- Components that fit the buffer do not fault. -/
theorem walkBuf_of_lt {s : FS} {cs : List (List Byte)} (hcs : ∀ c ∈ cs, c.length < maxFilename) (d : ℕ) :
    walkBuf s d cs = .ok (code (s.table.walk d cs)) := by
  induction cs generalizing d with
  | nil => rfl
  | cons c cs ih =>
    simp only [walkBuf, fit_of_lt (hcs c (by simp)), Except.bind, walk_cons]
    cases hc : s.table.child d c with
    | none => rfl
    | some i => exact ih (fun b hb => hcs b (by simp [hb])) i

/-- The path is a list of components that fit the component buffer. -/
def PathFits (path : List Byte) : Prop := ∀ c ∈ components path, c.length < maxFilename

instance (path : List Byte) : Decidable (PathFits path) :=
  inferInstanceAs (Decidable (∀ c ∈ components path, c.length < maxFilename))

/-- `fs_parse_path` returns slot `i`. -/
def Resolves (s : FS) (path : List Byte) (i : ℕ) : Prop := fsParsePath s path = .ok (i : Int)

theorem Resolves.unique {s : FS} {path : List Byte} {i j : ℕ} (hi : Resolves s path i)
    (hj : Resolves s path j) : i = j :=
  Int.ofNat_inj.mp (Except.ok.inj (hi.symm.trans hj))

theorem code_eq_natCast {o : Option ℕ} {i : ℕ} : code o = (i : Int) ↔ o = some i := by
  cases o with
  | none => simp only [code, reduceCtorEq]
  | some j => simp only [code, Option.some.injEq]; omega

theorem fsParsePath_ok {s : FS} {path : List Byte} (h0 : (0 : Byte) ∉ path) {r : Int}
    (h : fsParsePath s path = .ok r) : r = code (s.table.walk 0 (components path)) :=
  walkBuf_ok (by rwa [fsParsePath_eq s h0] at h)

theorem fsParsePath_of_fits (s : FS) {path : List Byte} (h0 : (0 : Byte) ∉ path) (hp : PathFits path) :
    fsParsePath s path = .ok (code (s.table.walk 0 (components path))) := by
  rw [fsParsePath_eq s h0, walkBuf_of_lt hp]

/-- The slot a path resolves to is live. -/
theorem Resolves.lt {s : FS} {path : List Byte} {i : ℕ} (h : Resolves s path i) (h0 : (0 : Byte) ∉ path)
    (hroot : 0 < s.fileCount) : i < s.fileCount :=
  walk_lt hroot (code_eq_natCast.mp (fsParsePath_ok h0 h).symm)

/-- Live names are terminated inside their arrays. -/
def NamesOk (s : FS) : Prop := ∀ i < s.fileCount, Terminated (s.files i).name maxFilename

/-- **Resolution is the walk** in a table whose names are strings. -/
theorem resolves_iff {s : FS} (hs : NamesOk s) {path : List Byte} (h0 : (0 : Byte) ∉ path) {i : ℕ} :
    Resolves s path i ↔ s.table.walk 0 (components path) = some i := by
  constructor
  · intro h
    exact code_eq_natCast.mp (fsParsePath_ok h0 h).symm
  · intro h
    -- every component on a successful walk is a name, so it fits the component buffer
    have hp : PathFits path := by
      intro c hc
      obtain ⟨j, hj, rfl⟩ := label_of_walk h c hc
      exact length_cstr_lt (hs j hj)
    unfold Resolves
    rw [fsParsePath_of_fits s h0 hp, h]
    rfl

end FoxOS
