import FoxOS.Lib.Runs
import FoxOS.Lib.Mealy
import FoxOS.Lib.Segs
import FoxOS.Lib.ParentTable
import FoxOS.Lib.Shift
import FoxOS.Lib.Zipper
import FoxOS.Lib.Teletype
import FoxOS.Lib.Numeral
import FoxOS.Lib.ByteMem
import FoxOS.Lib.PageWalk
import FoxOS.CString
import FoxOS.Kbd.Model
import FoxOS.Kbd.Keys
import FoxOS.Fs.Model
import FoxOS.Fs.Ops
import FoxOS.Fs.Inv
import FoxOS.Fs.Create
import FoxOS.Fs.Resolve
import FoxOS.Fs.Listing
import FoxOS.Fs.Delete
import FoxOS.Fs.Undo
import FoxOS.Fs.Data
import FoxOS.Fs.Leak
import FoxOS.Fs.Stale
import FoxOS.Fs.Tombstone
import FoxOS.Vga.Cursor
import FoxOS.Vga.Cells
import FoxOS.Vga.Refine
import FoxOS.Vga.Numbers
import FoxOS.Vga.Printf
import FoxOS.Term.Model
import FoxOS.Term.Shell
import FoxOS.Term.Cwd
import FoxOS.Term.Cd
import FoxOS.Term.Faults
import FoxOS.Term.Editor
import FoxOS.Term.Dispatch
import FoxOS.Term.Screen
import FoxOS.Term.Touch
import FoxOS.Term.Display
import FoxOS.Boot.Paging
import FoxOS.Kernel.Loop
import FoxOS.Kernel.Typing
import FoxOS.Fs.Store
import FoxOS.Fs.Links
import FoxOS.Term.Desk
import FoxOS.Boot.Handoff
import FoxOS.Bytes.Path
import FoxOS.Bytes.Commands
