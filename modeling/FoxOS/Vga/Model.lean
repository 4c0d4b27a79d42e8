import Mathlib.Algebra.Group.Int.Defs
import Mathlib.Algebra.Group.Nat.Defs
import FoxOS.CString

/-!
# FoxOS.Vga.Model — the text console (`src/vga.c`)

The state is the text memory, the software cursor, the current colour and the two cursor registers of the
controller.  `stores` is a ghost: the indices of all stores to `vga_buffer`, the last one first.  A store
outside the 80×25 cells does not stop the machine, it hits other memory; so the text memory is a function
on all indices and the log says where the stores went.

The number printers and `vga_printf` are modelled by the characters they pass to `vga_putchar`.
-/

namespace FoxOS

def vgaWidth : ℕ := 80
def vgaHeight : ℕ := 25

structure Vga where
  buffer : Int → UInt16
  cursorX : Int
  cursorY : Int
  color : UInt8
  cursorLow : UInt8
  cursorHigh : UInt8
  stores : List Int

def Vga.store (v : Vga) (i : Int) (e : UInt16) : Vga :=
  { v with buffer := Function.update v.buffer i e, stores := i :: v.stores }

def vgaEntryColor (fg bg : UInt8) : UInt8 := fg ||| (bg <<< 4)

/-- The cell for a character; `char` is signed, so a byte from 128 on is sign-extended. -/
def vgaEntry (c : Byte) (color : UInt8) : UInt16 :=
  (if c < 128 then c.toUInt16 else c.toUInt16 ||| 0xFF00) ||| (color.toUInt16 <<< 8)

/-! ### Colours -/

def vgaColorBlack : UInt8 := 0
def vgaColorBrown : UInt8 := 6
def vgaColorLightGrey : UInt8 := 7
def vgaColorLightBlue : UInt8 := 9
def vgaColorLightGreen : UInt8 := 10
def vgaColorLightCyan : UInt8 := 11
def vgaColorLightRed : UInt8 := 12
def vgaColorLightMagenta : UInt8 := 13
def vgaColorWhite : UInt8 := 15

def vgaSetColor (v : Vga) (foreground background : UInt8) : Vga :=
  { v with color := vgaEntryColor foreground background }

/-! ### Cursor, scrolling, clearing -/

/-- Nothing is checked; the registers get the position modulo `2 ^ 16`. -/
def vgaSetCursor (v : Vga) (x y : Int) : Vga :=
  let pos := ((y * vgaWidth + x) % 2 ^ 16).toNat
  { v with cursorLow := UInt8.ofNat pos, cursorHigh := UInt8.ofNat (pos / 256), cursorX := x, cursorY := y }

/-- Blank the `n` cells of row `y` from column `0` on, in the current colour. -/
def blankRow (y n : ℕ) (v : Vga) : Vga :=
  (List.range n).foldl (fun v x => v.store ((y * vgaWidth + x : ℕ) : Int) (vgaEntry space v.color)) v

/-- Copy row `y + 1` to row `y`. -/
def copyRow (v : Vga) (y : ℕ) : Vga :=
  (List.range vgaWidth).foldl (fun v x =>
    v.store ((y * vgaWidth + x : ℕ) : Int) (v.buffer (((y + 1) * vgaWidth + x : ℕ) : Int))) v

def vgaScroll (v : Vga) : Vga :=
  blankRow (vgaHeight - 1) vgaWidth ((List.range (vgaHeight - 1)).foldl copyRow v)

def vgaClear (v : Vga) : Vga :=
  vgaSetCursor ((List.range vgaHeight).foldl (fun v y => blankRow y vgaWidth v) v) 0 0

def vgaInit (v : Vga) : Vga :=
  vgaClear { v with color := vgaEntryColor vgaColorLightGrey vgaColorBlack }

/-! ### Output of characters -/

/-- The tail of `vga_putchar`: wrap, scroll, move the hardware cursor. -/
def Vga.advance (v : Vga) : Vga :=
  let v := if v.cursorX ≥ vgaWidth then { v with cursorX := 0, cursorY := v.cursorY + 1 } else v
  let v := if v.cursorY ≥ vgaHeight then { vgaScroll v with cursorY := (vgaHeight : Int) - 1 } else v
  vgaSetCursor v v.cursorX v.cursorY

/-- The two erasing branches of `vga_putchar` for a backspace: blank the cell and stay on it. -/
def Vga.erase (v : Vga) (x y : Int) : Vga :=
  vgaSetCursor (v.store (y * vgaWidth + x) (vgaEntry space v.color)) x y

def vgaPutchar (v : Vga) (c : Byte) : Vga :=
  if c = newline then Vga.advance { v with cursorX := 0, cursorY := v.cursorY + 1 }
  else if c = carriageReturn then Vga.advance { v with cursorX := 0 }
  -- `(cursor_x + 8) & ~7`
  else if c = tab then Vga.advance { v with cursorX := (v.cursorX + 8) - (v.cursorX + 8) % 8 }
  else if c = backspace then
    if v.cursorX > 0 then v.erase (v.cursorX - 1) v.cursorY
    else if v.cursorY > 0 then v.erase ((vgaWidth : Int) - 1) (v.cursorY - 1)
    else v.advance
  else
    Vga.advance
      { v.store (v.cursorY * vgaWidth + v.cursorX) (vgaEntry c v.color) with cursorX := v.cursorX + 1 }

/-- Pass the characters to `vga_putchar` one after another. -/
def putChars (v : Vga) (cs : List Byte) : Vga := cs.foldl vgaPutchar v

def vgaWrite (v : Vga) (s : List Byte) : Vga := putChars v s

def vgaPuts (v : Vga) (s : List Byte) : Vga := putChars v s

/-! ### Numbers -/

/-- The digit loop `while (num > 0)`: `room` is what is left of the digit buffer.  Digits are stored from
the lowest on and printed from the last one stored, so the list is in printing order. -/
def digitLoop (base : ℕ) (digit : ℕ → Byte) : ℕ → ℕ → List Byte → Except Fault (List Byte)
  | _, 0, buf => .ok buf
  | 0, _ + 1, _ => .error (.outOfBounds .digits)
  | room + 1, num + 1, buf =>
    digitLoop base digit room ((num + 1) / base) (digit ((num + 1) % base) :: buf)

def decDigit (d : ℕ) : Byte := UInt8.ofNat (48 + d)

/-- `"0123456789ABCDEF"[d]`. -/
def hexDigit (d : ℕ) : Byte := UInt8.ofNat (if d < 10 then 48 + d else 55 + d)

/-- The characters `vga_put_dec` prints; the digit buffer has 32 bytes. -/
def putDecChars (num : Int) : Except Fault (List Byte) :=
  if num = -2 ^ 63 then .ok (str "-9223372036854775808")
  else
    (if num.natAbs = 0 then .ok [decDigit 0] else digitLoop 10 decDigit 32 num.natAbs []).bind fun buf =>
      .ok (if num < 0 then str "-" ++ buf else buf)

/-- The characters `vga_put_hex` prints: a `do`-loop over a buffer of 32 bytes. -/
def putHexChars (num : ℕ) : Except Fault (List Byte) :=
  (digitLoop 16 hexDigit 31 (num / 16) [hexDigit (num % 16)]).bind fun buf => .ok (str "0x" ++ buf)

/-- The characters `vga_put_bin` prints: a `do`-loop over a buffer of 65 bytes. -/
def putBinChars (num : ℕ) : Except Fault (List Byte) :=
  (digitLoop 2 decDigit 64 (num / 2) [decDigit (num % 2)]).bind fun buf => .ok (str "0b" ++ buf)

/-! ### `vga_printf` -/

/-- An argument of `vga_printf`, of the type its directive reads. -/
inductive Arg
  | int (n : Int)
  | int64 (n : Int)
  | uint64 (n : ℕ)
  | string (s : List Byte)
  | char (c : Byte)

/-- Print the next argument with `f`; an argument that is missing or of another type is not there. -/
def withArg (f : Arg → Option (Except Fault (List Byte))) : List Arg → Except Fault (List Byte × List Arg)
  | [] => .error (.outOfBounds .formatArgs)
  | a :: args =>
    match f a with
    | none => .error (.outOfBounds .formatArgs)
    | some text => text.bind fun text => .ok (text, args)

/-- The directive of one conversion character, behind `%`. -/
def directive (c : Byte) (args : List Arg) : Except Fault (List Byte × List Arg) :=
  if c = 100 then withArg (fun | .int n => some (putDecChars n) | _ => none) args
  else if c = 120 then withArg (fun | .uint64 n => some (putHexChars n) | _ => none) args
  else if c = 98 then withArg (fun | .uint64 n => some (putBinChars n) | _ => none) args
  else if c = 115 then withArg (fun | .string s => some (.ok s) | _ => none) args
  else if c = 99 then withArg (fun | .char c => some (.ok [c]) | _ => none) args
  else if c = percent then .ok ([percent], args)
  else .ok ([percent, c], args)

/-- The characters `vga_printf` prints.  Behind `%` and behind `%ll` the scanner takes one more character
without a look at the terminator. -/
def printfChars : List Byte → List Arg → Except Fault (List Byte)
  | [], _ => .ok []
  | c :: format, args =>
    if c = percent then
      match format with
      | 108 :: 108 :: 100 :: rest =>
        (withArg (fun | .int64 n => some (putDecChars n) | _ => none) args).bind fun (text, args) =>
          (printfChars rest args).bind fun out => .ok (text ++ out)
      | 108 :: 108 :: _ :: rest => printfChars rest args
      | [108, 108] => .error (.outOfBounds .format)
      | d :: rest =>
        (directive d args).bind fun (text, args) =>
          (printfChars rest args).bind fun out => .ok (text ++ out)
      | [] => .error (.outOfBounds .format)
    else (printfChars format args).bind fun out => .ok (c :: out)

def vgaPrintf (v : Vga) (format : List Byte) (args : List Arg) : Except Fault Vga :=
  (printfChars format args).bind fun text => .ok (putChars v text)

end FoxOS
