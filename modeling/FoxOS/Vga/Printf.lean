import FoxOS.Vga.Numbers

/-!
# FoxOS.Vga.Printf — the format scanner

A format is a list of pieces: characters, and directives with the character that ends them.  `expansion` says
what the pieces print with a list of arguments, `Supplies` that the arguments are there and of the types the
directives read.  `printfChars_eq` is the scanner in these terms: it prints the expansion if the pieces are the
whole format, and runs over the terminator if the format ends inside a directive (`%` or `%ll`).
-/

namespace FoxOS

open Numeral

/-! ### Formats -/

/-- A piece of a format: a character, `%ll` and a character, `%` and a character. -/
inductive Piece
  | lit (c : Byte)
  | long (c : Byte)
  | conv (c : Byte)
  deriving DecidableEq

/-- The characters of the piece in the format. -/
def Piece.source : Piece → List Byte
  | .lit c => [c]
  | .long c => [percent, 108, 108, c]
  | .conv c => [percent, c]

/-- The pieces of a format; what stands behind them is a directive that does not end. -/
def pieces : List Byte → List Piece
  | [] => []
  | c :: format =>
    if c = percent then
      match format with
      | 108 :: 108 :: d :: rest => .long d :: pieces rest
      | [108, 108] => []
      | d :: rest => .conv d :: pieces rest
      | [] => []
    else .lit c :: pieces format

/-- The format ends behind a piece. -/
def Complete (format : List Byte) : Prop := (pieces format).flatMap Piece.source = format

instance (format : List Byte) : Decidable (Complete format) :=
  inferInstanceAs (Decidable ((pieces format).flatMap Piece.source = format))

/-! ### Arguments -/

/-- The types that directives read. -/
inductive ArgType
  | int | int64 | uint64 | string | char
  deriving DecidableEq

/-- The argument is a value of the type. -/
def Arg.Has : Arg → ArgType → Prop
  | .int n, .int => -2 ^ 31 ≤ n ∧ n < 2 ^ 31
  | .int64 n, .int64 => -2 ^ 63 ≤ n ∧ n < 2 ^ 63
  | .uint64 n, .uint64 => n < 2 ^ 64
  | .string s, .string => (0 : Byte) ∉ s
  | .char _, .char => True
  | _, _ => False

/-- What a piece reads: `%lld`, `%d`, `%x`, `%b`, `%s`, `%c`. -/
def Piece.reads : Piece → Option ArgType
  | .lit _ => none
  | .long c => if c = 100 then some .int64 else none
  | .conv c =>
    if c = 100 then some .int
    else if c = 120 ∨ c = 98 then some .uint64
    else if c = 115 then some .string
    else if c = 99 then some .char
    else none

/-- What a piece prints that reads nothing. -/
def Piece.plain : Piece → List Byte
  | .lit c => [c]
  | .long _ => []
  | .conv c => if c = percent then [percent] else [percent, c]

/-- What a piece prints with the argument it reads. -/
def Piece.shown (p : Piece) : Arg → List Byte
  | .int n => decText n
  | .int64 n => decText n
  | .uint64 n => if p = .conv 98 then binText n else hexText n
  | .string s => s
  | .char c => [c]

/-- The concatenation of what the pieces print. -/
def expansion : List Piece → List Arg → List Byte
  | [], _ => []
  | p :: ps, args =>
    match p.reads with
    | none => p.plain ++ expansion ps args
    | some _ =>
      match args with
      | a :: args => p.shown a ++ expansion ps args
      | [] => []

/-- The arguments supply, in order, a value for each piece that reads one. -/
inductive Supplies : List Piece → List Arg → Prop
  | nil (args : List Arg) : Supplies [] args
  | plain {p : Piece} {ps : List Piece} {args : List Arg} (hp : p.reads = none) (h : Supplies ps args) :
      Supplies (p :: ps) args
  | arg {p : Piece} {ps : List Piece} {t : ArgType} {a : Arg} {args : List Arg}
    (hp : p.reads = some t) (ha : a.Has t) (h : Supplies ps args) : Supplies (p :: ps) (a :: args)

/-! ### One piece -/

section Step

variable {args : List Arg} {p : Piece} {ps : List Piece}

/-- What the scanner does with a piece. -/
def Piece.step (p : Piece) (args : List Arg) : Except Fault (List Byte × List Arg) :=
  match p with
  | .lit c => .ok ([c], args)
  | .long c =>
    if c = 100 then withArg (fun | .int64 n => some (putDecChars n) | _ => none) args else .ok ([], args)
  | .conv c => directive c args

/-- A piece that reads nothing prints its own text. -/
theorem step_plain (hp : p.reads = none) (args : List Arg) : p.step args = .ok (p.plain, args) := by
  cases p with
  | lit c => rfl
  | long c =>
    rw [Piece.step, if_neg]
    · rfl
    · rintro rfl
      exact absurd hp (by decide)
  | conv c =>
    simp only [Piece.reads] at hp
    split_ifs at hp with h1 h2 h3 h4
    rw [not_or] at h2
    rw [Piece.step, directive, if_neg h1, if_neg h2.1, if_neg h2.2, if_neg h3, if_neg h4, Piece.plain]
    by_cases h5 : c = percent
    · rw [if_pos h5, if_pos h5]
    · rw [if_neg h5, if_neg h5]

/-- A piece that reads an argument of its type prints it and takes it. -/
theorem step_arg {t : ArgType} {a : Arg} (hp : p.reads = some t) (ha : a.Has t) (args : List Arg) :
    p.step (a :: args) = .ok (p.shown a, args) := by
  cases p with
  | lit c => cases hp
  | long c =>
    simp only [Piece.reads] at hp
    split_ifs at hp with h1
    cases hp
    cases a with
    | int64 n =>
      simp only [Piece.step, if_pos h1, withArg, putDecChars_eq ha.1 ha.2, Except.bind]
      rfl
    | _ => exact ha.elim
  | conv c =>
    simp only [Piece.reads] at hp
    split_ifs at hp with h1 h2 h3 h4 <;> cases hp
    · cases a with
      | int n =>
        obtain ⟨hlo, hhi⟩ := ha
        have hdec := putDecChars_eq (n := n) (by omega) (by omega)
        simp only [Piece.step, directive, if_pos h1, withArg, hdec, Except.bind]
        rfl
      | _ => exact ha.elim
    · cases a with
      | uint64 n =>
        rcases h2 with rfl | rfl
        · simp only [Piece.step, directive, if_neg h1, withArg, putHexChars_eq ha, Except.bind]
          rfl
        · simp only [Piece.step, directive, if_neg h1, withArg, putBinChars_eq ha, Except.bind]
          rfl
      | _ => exact ha.elim
    · cases a with
      | string s =>
        subst h3
        rfl
      | _ => exact ha.elim
    · cases a with
      | char c =>
        subst h4
        rfl
      | _ => exact ha.elim

/-- **One piece**: its text, and the arguments left supply the rest. -/
theorem step_of_supplies (h : Supplies (p :: ps) args) : ∃ text args', p.step args = .ok (text, args') ∧
    Supplies ps args' ∧ expansion (p :: ps) args = text ++ expansion ps args' := by
  cases h with
  | plain hp h => exact ⟨_, _, step_plain hp args, h, by simp only [expansion, hp]⟩
  | arg hp ha h => exact ⟨_, _, step_arg hp ha _, h, by simp only [expansion, hp]⟩

end Step

/-! ### Literal text -/

theorem Supplies.lits {ps : List Piece} {args : List Arg} (h : Supplies ps args) (cs : List Byte) :
    Supplies (cs.map .lit ++ ps) args := by
  induction cs with
  | nil => exact h
  | cons c cs ih => exact .plain rfl ih

theorem expansion_lits (cs : List Byte) (ps : List Piece) (args : List Arg) :
    expansion (cs.map .lit ++ ps) args = cs ++ expansion ps args := by
  induction cs with
  | nil => rfl
  | cons c cs ih =>
    rw [List.map_cons, List.cons_append, List.cons_append, ← ih]
    rfl

/-! ### The scanner -/

/-- What the scanner does at the front of a format that goes on with `rest` behind the piece `p`. -/
structure Scans (format : List Byte) (p : Piece) (rest : List Byte) : Prop where
  source : format = p.source ++ rest
  front : pieces format = p :: pieces rest
  chars : ∀ args, printfChars format args =
    (p.step args).bind fun x => (printfChars rest x.2).bind fun out => .ok (x.1 ++ out)

theorem scans_lit {c : Byte} (hc : c ≠ percent) (rest : List Byte) : Scans (c :: rest) (.lit c) rest := by
  refine ⟨rfl, by rw [pieces.eq_def]; simp only [if_neg hc], fun args => ?_⟩
  rw [printfChars.eq_def]
  simp only [if_neg hc, Piece.step, Except.bind, List.singleton_append]

theorem scans_long (d : Byte) (rest : List Byte) :
    Scans (percent :: 108 :: 108 :: d :: rest) (.long d) rest := by
  refine ⟨rfl, by rw [pieces, if_pos rfl], fun args => ?_⟩
  rw [printfChars.eq_def]
  by_cases hd : d = 100
  · subst hd
    rfl
  · simp only [if_true, Piece.step, if_neg hd, Except.bind, List.nil_append]
    cases printfChars rest args with
    | error e => rfl
    | ok out => rfl

theorem scans_conv {d : Byte} {rest : List Byte} (h : ¬ (d = 108 ∧ rest.head? = some 108)) :
    Scans (percent :: d :: rest) (.conv d) rest := by
  -- the two patterns with `ll` do not match
  refine ⟨rfl, ?_, fun args => ?_⟩
  · rw [pieces.eq_def]
    simp only [if_true]
    split
    case h_1 heq => cases heq; exact absurd ⟨rfl, rfl⟩ h
    case h_2 heq => cases heq; exact absurd ⟨rfl, rfl⟩ h
    case h_3 heq => cases heq; rfl
    case h_4 heq => cases heq
  · rw [printfChars.eq_def]
    simp only [if_true]
    split
    case h_1 heq => cases heq; exact absurd ⟨rfl, rfl⟩ h
    case h_2 heq => cases heq; exact absurd ⟨rfl, rfl⟩ h
    case h_3 heq => cases heq; exact absurd ⟨rfl, rfl⟩ h
    case h_4 heq => cases heq; rfl
    case h_5 heq => cases heq

/-- A directive that does not end has no pieces, and the scanner runs over the terminator. -/
structure Unfinished (format : List Byte) : Prop where
  ne_nil : format ≠ []
  front : pieces format = []
  chars : ∀ args, printfChars format args = .error (.outOfBounds .format)

/-- **The front of a format**: nothing, a piece, or a directive that does not end. -/
theorem scan_cases (format : List Byte) :
    format = [] ∨ (∃ p rest, Scans format p rest) ∨ Unfinished format := by
  cases format with
  | nil => exact Or.inl rfl
  | cons c format =>
  by_cases hc : c = percent
  swap
  · exact Or.inr (Or.inl ⟨_, _, scans_lit hc format⟩)
  subst hc
  cases format with
  | nil => exact Or.inr (Or.inr ⟨List.cons_ne_nil _ _, rfl, fun _ => rfl⟩)
  | cons d rest =>
  by_cases hl : d = 108 ∧ rest.head? = some 108
  swap
  · exact Or.inr (Or.inl ⟨_, _, scans_conv hl⟩)
  obtain ⟨rfl, hhead⟩ := hl
  obtain ⟨t, rfl⟩ := List.head?_eq_some_iff.mp hhead
  cases t with
  | nil => exact Or.inr (Or.inr ⟨List.cons_ne_nil _ _, rfl, fun _ => rfl⟩)
  | cons e t => exact Or.inr (Or.inl ⟨_, _, scans_long e t⟩)

theorem Scans.complete_iff {format rest : List Byte} {p : Piece} (h : Scans format p rest) :
    Complete format ↔ Complete rest := by
  rw [Complete, h.front, List.flatMap_cons, h.source, List.append_cancel_left_eq, Complete]

theorem Piece.source_length (p : Piece) : 0 < p.source.length := by
  cases p <;> exact Nat.succ_pos _

/-- **The scanner** prints the expansion of a complete format, and runs over the terminator of any other. -/
theorem printfChars_eq (format : List Byte) (args : List Arg) (hs : Supplies (pieces format) args) :
    printfChars format args =
      if Complete format then .ok (expansion (pieces format) args) else .error (.outOfBounds .format) := by
  obtain ⟨n, hn⟩ : ∃ n, format.length = n := ⟨_, rfl⟩
  induction n using Nat.strong_induction_on generalizing format args with
  | _ n ih =>
  rcases scan_cases format with rfl | ⟨p, rest, hscan⟩ | hun
  · rfl
  · rw [hscan.front] at hs
    obtain ⟨text, args', hstep, hs', htext⟩ := step_of_supplies hs
    have hlen : rest.length < n := by
      have := p.source_length
      rw [← hn, hscan.source, List.length_append]
      omega
    rw [hscan.chars, hstep, Except.bind, ih _ hlen rest args' hs' rfl, hscan.front, htext]
    by_cases hc : Complete rest
    · rw [if_pos hc, if_pos (hscan.complete_iff.mpr hc), Except.bind]
    · rw [if_neg hc, if_neg (fun h => hc (hscan.complete_iff.mp h)), Except.bind]
  · have hno : ¬ Complete format := by
      rw [Complete, hun.front]
      exact fun h => hun.ne_nil h.symm
    rw [if_neg hno, hun.chars]

/-- **The format scanner**, for every format and every argument list that supplies its directives: it stays
inside the format and passes to `vga_putchar` exactly the expansion, if and only if the format does not end
inside a directive. -/
theorem printf_inside_iff (v : Vga) (format : CString) (args : List Arg)
    (hs : Supplies (pieces format.val) args) :
    (printfChars format.val args = .ok (expansion (pieces format.val) args) ∧
      vgaPrintf v format.val args = .ok (putChars v (expansion (pieces format.val) args))) ↔
    Complete format.val := by
  have heq := printfChars_eq format.val args hs
  constructor
  · rintro ⟨hchars, -⟩
    by_contra hno
    rw [if_neg hno, hchars] at heq
    cases heq
  · intro hc
    rw [if_pos hc] at heq
    exact ⟨heq, by rw [vgaPrintf, heq, Except.bind]⟩

/-- Arguments for a format with two directives. -/
theorem supplies_sample : Supplies (pieces (str "%d%%")) [.int (-7)] := by
  have hp : pieces (str "%d%%") = [.conv 100, .conv percent] := by decide +kernel
  rw [hp]
  exact .arg rfl ⟨by decide, by decide⟩ (.plain rfl (.nil _))

theorem printf_inside_sample : printfChars (str "%d%%") [.int (-7)] =
    .ok (expansion (pieces (str "%d%%")) [.int (-7)]) :=
  ((printf_inside_iff ⟨fun _ => 0, 0, 0, 0, 0, 0, []⟩ (lit "%d%%") _ supplies_sample).mpr (by decide +kernel)).1

/-- `vga_printf("100%")` and `vga_printf("%ll")` read the byte behind the terminator. -/
theorem printf_runs_over :
    Supplies (pieces (str "100%")) [] ∧ printfChars (str "100%") [] = .error (.outOfBounds .format) ∧
    Supplies (pieces (str "%ll")) [] ∧ printfChars (str "%ll") [] = .error (.outOfBounds .format) := by
  have hp : pieces (str "100%") = (str "100").map .lit ++ [] := by decide +kernel
  have hp' : pieces (str "%ll") = [] := by decide +kernel
  rw [hp, hp']
  exact ⟨(Supplies.nil _).lits _, by decide +kernel, .nil _, by decide +kernel⟩

end FoxOS
