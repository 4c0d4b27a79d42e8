import FoxOS.CString

/-!
# FoxOS.Kbd.Model — the keyboard driver (`src/keyboard.c`, `src/keyboard.h`)

`keyboardRead` is one call of `keyboard_read`; its second argument is the byte that `keyboard_get_scancode`
reads from port `0x60`.  The wait for the controller in front of the read has no effect on the state and is left
out.
-/

namespace FoxOS

/-! ### Scancodes and characters -/

def keyLshift : Byte := 0x2A
def keyRshift : Byte := 0x36
def keyUp : Byte := 0x48
def keyDown : Byte := 0x50
def keyLeft : Byte := 0x4B
def keyRight : Byte := 0x4D
def keyDelete : Byte := 0x53

def charUp : Byte := 1
def charDown : Byte := 2
def charLeft : Byte := 3
def charRight : Byte := 4
def charDel : Byte := 5

def scancodeToChar : List Byte :=
  [0, 0] ++ str "1234567890-=\x08" ++
  str "\tqwertyuiop[]\n" ++
  [0] ++ str "asdfghjkl;'`" ++
  [0] ++ str "\\zxcvbnm,./" ++ [0] ++
  str "*" ++ [0] ++ str " "

def scancodeToCharShift : List Byte :=
  [0, 0] ++ str "!@#$%^&*()_+\x08" ++
  str "\tQWERTYUIOP\x7b\x7d\n" ++
  [0] ++ str "ASDFGHJKL:\"~" ++
  [0] ++ str "|ZXCVBNM<>?" ++ [0] ++
  str "*" ++ [0] ++ str " "

/-- The tables have the same length, so the one bound that the code checks is good for both. -/
theorem length_scancodeToCharShift : scancodeToCharShift.length = scancodeToChar.length := by
  decide +kernel

/-- The character of a make code: the `switch` of `keyboard_read`. -/
def scancodeChar (shiftPressed scancode : Byte) : Byte :=
  if scancode = keyUp then charUp
  else if scancode = keyDown then charDown
  else if scancode = keyLeft then charLeft
  else if scancode = keyRight then charRight
  else if scancode = keyDelete then charDel
  else if h : scancode.toNat < scancodeToChar.length then
    if shiftPressed ≠ 0
      then scancodeToCharShift.get ⟨scancode.toNat, h.trans_eq length_scancodeToCharShift.symm⟩
    else scancodeToChar.get ⟨scancode.toNat, h⟩
  else 0

/-! ### `keyboard_read` -/

/-- The static variables of the driver. -/
structure Kbd where
  shiftPressed : Byte
  lastScancode : Byte
  keyHeld : Byte
  deriving DecidableEq

def zeroKbd : Kbd := ⟨0, 0, 0⟩

def keyboardRead (k : Kbd) (scancode : Byte) : Kbd × Byte :=
  if scancode = keyLshift ∨ scancode = keyRshift then ({ k with shiftPressed := 1 }, 0)
  else if scancode = keyLshift ||| 0x80 ∨ scancode = keyRshift ||| 0x80 then ({ k with shiftPressed := 0 }, 0)
  -- a release
  else if scancode &&& 0x80 ≠ 0 then
    if scancode &&& 0x7F = k.lastScancode then ({ k with lastScancode := 0, keyHeld := 0 }, 0) else (k, 0)
  -- a repeat of the key that is held
  else if scancode = k.lastScancode ∧ k.keyHeld ≠ 0 then (k, 0)
  else ({ k with lastScancode := scancode, keyHeld := 1 }, scancodeChar k.shiftPressed scancode)

end FoxOS
