import FoxOS.Lib.ByteMem
import FoxOS.Lib.Mealy
import FoxOS.Kbd.Model

/-!
# FoxOS.Kbd.Keys — key presses, repeats and releases

`keyboard_read` tells four kinds of bytes apart (`codeKind`, `keyboardRead_eq`).  Its duplicate suppression
remembers one key, while any number of keys can be down.  `Latched` is the link between that one key and the
keyboard: it is the key pressed last, and it is down.  From it every press gives its character and nothing else
gives one (`one_char_per_press`).  A byte read again at once is absorbed, so polling too often is harmless
(`polling_stutters`). The shift flag is one bit for two keys: `shift_tracks_iff` says which streams it follows.
-/

namespace FoxOS

open Mealy

/-! ### One read -/

/-- The kinds of bytes that `keyboard_read` tells apart. -/
inductive CodeKind
  | shiftMake | shiftBreak | release | make
  deriving DecidableEq

def codeKind (b : Byte) : CodeKind :=
  if b = keyLshift ∨ b = keyRshift then .shiftMake
  else if b = keyLshift ||| 0x80 ∨ b = keyRshift ||| 0x80 then .shiftBreak
  else if b &&& 0x80 ≠ 0 then .release
  else .make

/-- The release of the key with this make code. -/
def Kbd.release (k : Kbd) (code : Byte) : Kbd :=
  if code = k.lastScancode then { k with lastScancode := 0, keyHeld := 0 } else k

/-- The make code of a key other than shift. -/
def Kbd.make (k : Kbd) (code : Byte) : Kbd × Byte :=
  if code = k.lastScancode ∧ k.keyHeld ≠ 0 then (k, 0)
  else ({ k with lastScancode := code, keyHeld := 1 }, scancodeChar k.shiftPressed code)

variable {k : Kbd} {b c : Byte}

/-- **One read**, by the kind of the byte. -/
theorem keyboardRead_eq (k : Kbd) (b : Byte) : keyboardRead k b = match codeKind b with
    | .shiftMake => ({ k with shiftPressed := 1 }, 0)
    | .shiftBreak => ({ k with shiftPressed := 0 }, 0)
    | .release => (k.release (b &&& 0x7F), 0)
    | .make => k.make b := by
  unfold keyboardRead codeKind
  by_cases h1 : b = keyLshift ∨ b = keyRshift
  · rw [if_pos h1, if_pos h1]
  rw [if_neg h1, if_neg h1]
  by_cases h2 : b = keyLshift ||| 0x80 ∨ b = keyRshift ||| 0x80
  · rw [if_pos h2, if_pos h2]
  rw [if_neg h2, if_neg h2]
  by_cases h3 : b &&& 0x80 ≠ 0
  · rw [if_pos h3, if_pos h3]
    by_cases h4 : b &&& 0x7F = k.lastScancode
    · simp only [Kbd.release, if_pos h4]
    · simp only [Kbd.release, if_neg h4]
  · rw [if_neg h3, if_neg h3]
    rfl

theorem read_of_release (h : codeKind b = .release) : keyboardRead k b = (k.release (b &&& 0x7F), 0) := by
  rw [keyboardRead_eq, h]

theorem read_of_make (h : codeKind b = .make) : keyboardRead k b = k.make b := by
  rw [keyboardRead_eq, h]

/-! ### Polling -/

theorem release_idem (k : Kbd) (code : Byte) : (k.release code).release code = k.release code := by
  unfold Kbd.release
  by_cases h : code = k.lastScancode
  · simp only [if_pos h]
    by_cases h0 : code = 0
    · rw [if_pos h0]
    · rw [if_neg h0]
  · rw [if_neg h, if_neg h]

theorem make_again (k : Kbd) (code : Byte) : (k.make code).1.make code = ((k.make code).1, 0) := by
  unfold Kbd.make
  by_cases h : code = k.lastScancode ∧ k.keyHeld ≠ 0
  · rw [if_pos h, if_pos h]
  · rw [if_neg h]
    exact if_pos ⟨rfl, show (1 : Byte) ≠ 0 by decide⟩

/-- **A byte read again at once** changes nothing and gives no character. -/
theorem keyboardRead_settles : Settles keyboardRead 0 := by
  intro k b
  rw [keyboardRead_eq k, keyboardRead_eq _ b]
  cases codeKind b with
  | shiftMake => rfl
  | shiftBreak => rfl
  | release => exact congrArg (·, (0 : Byte)) (release_idem k _)
  | make => exact make_again k b

/-- **Polling neither duplicates nor loses characters**: from every state of the driver, a stream in which every
byte is read any number of further times gives the characters and the final state of the stream itself. -/
theorem polling_stutters (k : Kbd) (l : List (Byte × ℕ)) :
    (outputs keyboardRead k (stutter l)).filter (· ≠ 0) =
      (outputs keyboardRead k (l.map Prod.fst)).filter (· ≠ 0) ∧
    after keyboardRead k (stutter l) = after keyboardRead k (l.map Prod.fst) :=
  ⟨stutter_outputs keyboardRead_settles l, stutter_after keyboardRead_settles l⟩

/-! ### Key streams -/

/-- A key other than shift; the release of `0x60` would be the prefix byte. -/
def IsKey (k : Byte) : Prop := 1 ≤ k ∧ k ≤ 0x7F ∧ k ≠ keyLshift ∧ k ≠ keyRshift ∧ k ≠ 0x60

instance (k : Byte) : Decidable (IsKey k) := inferInstanceAs (Decidable (_ ∧ _ ∧ _ ∧ _ ∧ _))

/-- What a keyboard sends. -/
inductive KeyEvent
  | press (k : Byte)
  | typematic (k : Byte)
  | release (k : Byte)
  | shift (b : Byte)
  | extended

def KeyEvent.byte : KeyEvent → Byte
  | .press k => k
  | .typematic k => k
  | .release k => k ||| 0x80
  | .shift b => b
  | .extended => 0xE0

/-- The keyboard: the keys that are down, and the key pressed last. -/
structure Keys where
  down : Byte → Bool
  recent : Option Byte

def Keys.allUp : Keys := ⟨fun _ => false, none⟩

def Keys.next (p : Keys) : KeyEvent → Keys
  | .press k => ⟨Function.update p.down k true, some k⟩
  | .release k => ⟨Function.update p.down k false, p.recent⟩
  | _ => p

/-- The keyboard can send this: a key that is up is pressed, the key pressed last repeats while it is down, a
key that is down is released; shift bytes and prefixes come at any time. -/
def Keys.Sends (p : Keys) : KeyEvent → Prop
  | .press k => IsKey k ∧ p.down k = false
  | .typematic k => IsKey k ∧ p.recent = some k ∧ p.down k = true
  | .release k => IsKey k ∧ p.down k = true
  | .shift b => b ∈ [keyLshift, keyRshift, keyLshift ||| 0x80, keyRshift ||| 0x80]
  | .extended => True

instance (p : Keys) : DecidablePred p.Sends
  | .press _ | .typematic _ | .release _ => inferInstanceAs (Decidable (_ ∧ _))
  | .shift b => inferInstanceAs (Decidable (b ∈ [keyLshift, keyRshift, keyLshift ||| 0x80, keyRshift ||| 0x80]))
  | .extended => isTrue trivial

/-- A stream that the keyboard can send. -/
def WellFormed : Keys → List KeyEvent → Prop
  | _, [] => True
  | p, e :: es => p.Sends e ∧ WellFormed (p.next e) es

instance : ∀ (p : Keys) (es : List KeyEvent), Decidable (WellFormed p es)
  | _, [] => isTrue trivial
  | p, e :: es =>
    have := instDecidableWellFormed (p.next e) es
    inferInstanceAs (Decidable (p.Sends e ∧ WellFormed (p.next e) es))

/-- The character of an event when `shift_pressed` has this value: only a press has one. -/
def KeyEvent.char (shiftPressed : Byte) : KeyEvent → Byte
  | .press k => scancodeChar shiftPressed k
  | _ => 0

/-- The characters of the presses of a stream, each under the value of `shift_pressed` at the press. -/
def pressChars : Kbd → List KeyEvent → List Byte
  | _, [] => []
  | k, .press c :: es => scancodeChar k.shiftPressed c :: pressChars (keyboardRead k c).1 es
  | k, e :: es => pressChars (keyboardRead k e.byte).1 es

/-! ### The key that is remembered -/

/-- The driver remembers no key, and the key pressed last is up; or it remembers the key pressed last, which is
down. -/
inductive Latched (p : Keys) (k : Kbd) : Prop
  | idle (hlast : k.lastScancode = 0) (hheld : k.keyHeld = 0) (hup : ∀ c, p.recent = some c → p.down c = false)
  | held (hheld : k.keyHeld ≠ 0) (hkey : IsKey k.lastScancode) (hrecent : p.recent = some k.lastScancode)
      (hdown : p.down k.lastScancode = true)

theorem IsKey.codes (h : IsKey c) :
    codeKind c = .make ∧ codeKind (c ||| 0x80) = .release ∧ (c ||| 0x80) &&& 0x7F = c := by
  refine ByteMem.forall_byte (p := fun c => IsKey c →
    codeKind c = .make ∧ codeKind (c ||| 0x80) = .release ∧ (c ||| 0x80) &&& 0x7F = c) ?_ c h
  decide +kernel

theorem IsKey.ne_zero (h : IsKey c) : c ≠ 0 := by
  rintro rfl
  exact absurd h (by decide)

variable {p : Keys}

/-- **A press** of a key that is up is not taken for a repeat. -/
theorem Latched.press (h : Latched p k) (hc : IsKey c) (hup : p.down c = false) :
    Latched (p.next (.press c)) (keyboardRead k c).1 ∧
      (keyboardRead k c).2 = scancodeChar k.shiftPressed c := by
  have hfresh : ¬ (c = k.lastScancode ∧ k.keyHeld ≠ 0) := by
    rintro ⟨rfl, hne⟩
    cases h with
    | idle hlast hheld _ => exact hne hheld
    | held _ _ _ hdown => rw [hup] at hdown; cases hdown
  rw [read_of_make hc.codes.1, Kbd.make, if_neg hfresh]
  have hdown : Function.update p.down c true c = true := Function.update_self _ _ _
  exact ⟨.held (show (1 : Byte) ≠ 0 by decide) hc rfl hdown, rfl⟩

/-- **A typematic repeat** is dropped. -/
theorem Latched.typematic (h : Latched p k) (hc : IsKey c) (hrecent : p.recent = some c)
    (hdown : p.down c = true) : keyboardRead k c = (k, 0) := by
  rw [read_of_make hc.codes.1]
  cases h with
  | idle _ _ hup => rw [hup c hrecent] at hdown; cases hdown
  | held hheld _ hlast _ =>
    rw [hrecent] at hlast
    exact if_pos ⟨Option.some.inj hlast, hheld⟩

/-- **A release** gives no character; the remembered key is forgotten when it is released. -/
theorem Latched.release (h : Latched p k) (hc : IsKey c) :
    Latched (p.next (.release c)) (keyboardRead k (c ||| 0x80)).1 ∧ (keyboardRead k (c ||| 0x80)).2 = 0 := by
  obtain ⟨-, hkind, hcode⟩ := hc.codes
  rw [read_of_release hkind, hcode]
  refine ⟨?_, rfl⟩
  show Latched ⟨Function.update p.down c false, p.recent⟩ (k.release c)
  unfold Kbd.release
  cases h with
  | idle hlast hheld hup =>
    rw [if_neg (by rw [hlast]; exact hc.ne_zero)]
    refine .idle hlast hheld fun d hd => ?_
    by_cases hdc : d = c
    · subst hdc
      exact Function.update_self _ _ _
    · exact (Function.update_of_ne hdc _ _).trans (hup d hd)
  | held hheld hkey hrecent hdown =>
    by_cases hlast : c = k.lastScancode
    · rw [if_pos hlast]
      refine .idle rfl rfl fun d hd => ?_
      obtain rfl : k.lastScancode = d := Option.some.inj (hrecent.symm.trans hd)
      rw [← hlast]
      exact Function.update_self _ _ _
    · rw [if_neg hlast]
      exact .held hheld hkey hrecent ((Function.update_of_ne (Ne.symm hlast) _ _).trans hdown)

/-- A shift byte changes the flag only. -/
theorem read_shift (hb : b ∈ [keyLshift, keyRshift, keyLshift ||| 0x80, keyRshift ||| 0x80]) :
    ∃ flag, keyboardRead k b = ({ k with shiftPressed := flag }, 0) := by
  have hkind : codeKind b = .shiftMake ∨ codeKind b = .shiftBreak := by
    refine ByteMem.forall_byte
      (p := fun b => b ∈ [keyLshift, keyRshift, keyLshift ||| 0x80, keyRshift ||| 0x80] →
      codeKind b = .shiftMake ∨ codeKind b = .shiftBreak) ?_ b hb
    decide +kernel
  rw [keyboardRead_eq]
  rcases hkind with h | h
  · exact ⟨1, by rw [h]⟩
  · exact ⟨0, by rw [h]⟩

theorem Latched.flag (h : Latched p k) (flag : Byte) : Latched p { k with shiftPressed := flag } := by
  cases h with
  | idle hlast hheld hup => exact .idle hlast hheld hup
  | held hheld hkey hrecent hdown => exact .held hheld hkey hrecent hdown

/-- The prefix byte looks like the release of `0x60`, which is never remembered. -/
theorem Latched.extended (h : Latched p k) : keyboardRead k 0xE0 = (k, 0) := by
  have hlast : ¬ (0xE0 &&& 0x7F = k.lastScancode) := by
    intro heq
    cases h with
    | idle hlast _ _ => rw [hlast] at heq; exact absurd heq (by decide)
    | held _ hkey _ _ => rw [← heq] at hkey; exact absurd hkey (by decide)
  rw [read_of_release (by decide), Kbd.release, if_neg hlast]

/-- **One event**: the link is kept, and exactly a press gives its character. -/
theorem Latched.step (h : Latched p k) {e : KeyEvent} (he : p.Sends e) :
    Latched (p.next e) (keyboardRead k e.byte).1 ∧ (keyboardRead k e.byte).2 = e.char k.shiftPressed := by
  cases e with
  | press c => exact h.press he.1 he.2
  | typematic c =>
    show Latched p (keyboardRead k c).1 ∧ (keyboardRead k c).2 = 0
    rw [h.typematic he.1 he.2.1 he.2.2]
    exact ⟨h, rfl⟩
  | release c => exact h.release he.1
  | shift b =>
    obtain ⟨flag, hflag⟩ := read_shift (k := k) he
    show Latched p (keyboardRead k b).1 ∧ (keyboardRead k b).2 = 0
    rw [hflag]
    exact ⟨h.flag flag, rfl⟩
  | extended =>
    show Latched p (keyboardRead k 0xE0).1 ∧ (keyboardRead k 0xE0).2 = 0
    rw [h.extended]
    exact ⟨h, rfl⟩

theorem latched_zeroKbd : Latched .allUp zeroKbd := .idle rfl rfl (by nofun)

/-- **A stream**: the characters other than NUL are those of the presses. -/
theorem Latched.outputs {es : List KeyEvent} (h : Latched p k) (hes : WellFormed p es) :
    (outputs keyboardRead k (es.map KeyEvent.byte)).filter (· ≠ 0) = (pressChars k es).filter (· ≠ 0) := by
  induction es generalizing p k with
  | nil => rfl
  | cons e es ih =>
    obtain ⟨hnext, hout⟩ := h.step hes.1
    have htail := ih hnext hes.2
    rw [List.map_cons, outputs_cons, hout]
    cases e with
    | press c =>
      rw [pressChars, List.filter_cons, List.filter_cons, htail]
      rfl
    | _ => exact htail

/-- **The events** one by one. -/
theorem Latched.reads {es : List KeyEvent} (h : Latched p k) (hes : WellFormed p es)
    {pre : List KeyEvent} {e : KeyEvent} (hpre : pre ++ [e] <+: es) :
    (keyboardRead (after keyboardRead k (pre.map KeyEvent.byte)) e.byte).2 =
      e.char (after keyboardRead k (pre.map KeyEvent.byte)).shiftPressed := by
  induction pre generalizing p k es with
  | nil =>
    obtain ⟨post, rfl⟩ := hpre
    exact (h.step hes.1).2
  | cons d pre ih =>
    obtain ⟨post, rfl⟩ := hpre
    exact ih (h.step hes.1).1 hes.2 (List.prefix_append _ post)

/-- **One character per key press**: for every stream a keyboard can send, the characters returned are, in
order, those of the presses of keys that have one, under the value of `shift_pressed` at the press; every other
event returns 0. -/
theorem one_char_per_press (es : List KeyEvent) (hes : WellFormed .allUp es) :
    (outputs keyboardRead zeroKbd (es.map KeyEvent.byte)).filter (· ≠ 0) =
      (pressChars zeroKbd es).filter (· ≠ 0) ∧
    ∀ pre e, pre ++ [e] <+: es →
      (keyboardRead (after keyboardRead zeroKbd (pre.map KeyEvent.byte)) e.byte).2 =
        e.char (after keyboardRead zeroKbd (pre.map KeyEvent.byte)).shiftPressed :=
  ⟨latched_zeroKbd.outputs hes, fun _ _ hpre => latched_zeroKbd.reads hes hpre⟩

/-- Shift and `a`, then `s` while `a` is still down, with repeats and a prefix: `As`. -/
theorem one_char_per_press_sample :
    (outputs keyboardRead zeroKbd ([.shift keyLshift, .press 0x1E, .typematic 0x1E,
      .shift (keyLshift ||| 0x80), .press 0x1F, .release 0x1E, .extended, .typematic 0x1F,
      .release 0x1F].map KeyEvent.byte)).filter (· ≠ 0) = str "As" := by
  rw [(one_char_per_press _ (by decide +kernel)).1]
  decide +kernel

/-! ### The two shift keys -/

/-- Which of the shift keys are down. -/
structure ShiftKeys where
  left : Bool
  right : Bool
  deriving DecidableEq

def ShiftKeys.next (p : ShiftKeys) (b : Byte) : ShiftKeys :=
  if b = keyLshift then { p with left := true }
  else if b = keyRshift then { p with right := true }
  else if b = keyLshift ||| 0x80 then { p with left := false }
  else if b = keyRshift ||| 0x80 then { p with right := false }
  else p

/-- The shift keys after a stream that starts with no key down. -/
def shiftKeys (bs : List Byte) : ShiftKeys := bs.foldl ShiftKeys.next ⟨false, false⟩

/-- The byte releases one shift key while the other one is down. -/
def ShiftKeys.LeavesOther (p : ShiftKeys) (b : Byte) : Prop :=
  (b = keyLshift ||| 0x80 ∧ p.right = true) ∨ (b = keyRshift ||| 0x80 ∧ p.left = true)

/-- The flag is set exactly when a shift key is down. -/
def ShiftKeys.Shown (p : ShiftKeys) (k : Kbd) : Prop := k.shiftPressed = 1 ↔ p.left = true ∨ p.right = true

theorem shown_set {p : ShiftKeys} (h : p.left = true ∨ p.right = true) : p.Shown { k with shiftPressed := 1 } :=
  iff_of_true rfl h

theorem shown_unset_iff {p : ShiftKeys} :
    p.Shown { k with shiftPressed := 0 } ↔ ¬ (p.left = true ∨ p.right = true) :=
  iff_false_left (show ¬ (0 : Byte) = 1 by decide)

/-- **One read** keeps the flag right exactly when it does not release one of two shift keys. -/
theorem shown_step {p : ShiftKeys} (h : p.Shown k) (b : Byte) :
    (p.next b).Shown (keyboardRead k b).1 ↔ ¬ p.LeavesOther b := by
  unfold ShiftKeys.next ShiftKeys.LeavesOther
  by_cases h1 : b = keyLshift
  · subst h1
    refine iff_of_true (shown_set (Or.inl rfl)) ?_
    rintro (⟨hb, -⟩ | ⟨hb, -⟩) <;> exact absurd hb (by decide)
  by_cases h2 : b = keyRshift
  · subst h2
    refine iff_of_true (shown_set (Or.inr rfl)) ?_
    rintro (⟨hb, -⟩ | ⟨hb, -⟩) <;> exact absurd hb (by decide)
  by_cases h3 : b = keyLshift ||| 0x80
  · subst h3
    refine Iff.trans shown_unset_iff (not_congr ⟨?_, ?_⟩)
    · rintro (hl | hr)
      · cases hl
      · exact Or.inl ⟨rfl, hr⟩
    · rintro (⟨-, hr⟩ | ⟨hb, -⟩)
      · exact Or.inr hr
      · exact absurd hb (by decide)
  by_cases h4 : b = keyRshift ||| 0x80
  · subst h4
    refine Iff.trans shown_unset_iff (not_congr ⟨?_, ?_⟩)
    · rintro (hl | hr)
      · exact Or.inr ⟨rfl, hl⟩
      · cases hr
    · rintro (⟨hb, -⟩ | ⟨-, hl⟩)
      · exact absurd hb (by decide)
      · exact Or.inl hl
  -- every other byte leaves the flag and the shift keys alone
  rw [if_neg h1, if_neg h2, if_neg h3, if_neg h4]
  have hflag : (keyboardRead k b).1.shiftPressed = k.shiftPressed := by
    unfold keyboardRead
    rw [if_neg (not_or.mpr ⟨h1, h2⟩), if_neg (not_or.mpr ⟨h3, h4⟩)]
    split_ifs <;> rfl
  refine iff_of_true ?_ (not_or.mpr ⟨fun h' => h3 h'.1, fun h' => h4 h'.1⟩)
  unfold ShiftKeys.Shown
  rw [hflag]
  exact h

theorem foldl_shiftKeys (bs : List Byte) (k : Kbd) (p : ShiftKeys) :
    bs.foldl (fun q b => ((keyboardRead q.1 b).1, q.2.next b)) (k, p) =
      (after keyboardRead k bs, bs.foldl ShiftKeys.next p) := by
  induction bs generalizing k p with
  | nil => rfl
  | cons b bs ih => exact ih _ _

/-- **The shift flag** is right after every read of a stream that starts with no key down exactly when the
stream never releases one shift key while the other one is down. -/
theorem shift_tracks_iff (bs : List Byte) :
    (∀ pre, pre <+: bs → ((after keyboardRead zeroKbd pre).shiftPressed = 1 ↔
      (shiftKeys pre).left = true ∨ (shiftKeys pre).right = true)) ↔
    ∀ pre b, pre ++ [b] <+: bs → ¬ (shiftKeys pre).LeavesOther b := by
  have hiff := prefix_iff (w := bs) (s := (zeroKbd, (⟨false, false⟩ : ShiftKeys)))
    (f := fun q b => ((keyboardRead q.1 b).1, q.2.next b)) (I := fun q => q.2.Shown q.1) (P := fun _ _ => True)
    (G := fun q b => ¬ q.2.LeavesOther b) (fun q b hq _ => shown_step hq b) (by unfold ShiftKeys.Shown; decide)
    (fun _ _ _ => trivial)
  simp only [foldl_shiftKeys] at hiff
  exact hiff

/-- Both shift keys down and the right one released: the left one is still down and the flag is off. -/
theorem shift_lost : shiftKeys [keyLshift, keyRshift] = ⟨true, true⟩ ∧
    shiftKeys [keyLshift, keyRshift, keyRshift ||| 0x80] = ⟨true, false⟩ ∧
    (after keyboardRead zeroKbd [keyLshift, keyRshift, keyRshift ||| 0x80]).shiftPressed = 0 := by
  decide +kernel

end FoxOS
