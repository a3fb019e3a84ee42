/-
The terminal emulator of the terminal application, `apps/terminal/vt100.c`.

A terminal is a screen of cells kept row behind row in one array, a cursor, a scroll region,
a ring of lines that have left the screen, and the state of the parser for the bytes the shell
writes.  All of `vt100_new`, `vt100_feed`, `vt100_resize` and `vt100_scrollback_line` is here.

A result of `none` means that C gives the step no meaning: a cell outside the array is read or
written, or a sum or product of `int`s does not fit.  Differences are not checked: they are taken
of numbers that are not negative.  The arrays `interm` and `osc_buf` are the lists of the bytes
stored in them so far, and `sb_head + sb_count`, which is less than twice the number of lines the
ring has memory for, is computed in natural numbers.

`malloc` may fail, so the functions that call it are told which sizes it has memory for.
-/
import Nv0ken.Lib.Grid
import Nv0ken.Lib.Run
import Nv0ken.Lib.Word

namespace Nv0ken.Terminal

open Grid Word
open Run (run)

/-! ### The state -/

def maxParams : Nat := 16

def maxInterm : Nat := 4

def maxOscLen : Nat := 512

def vtColorDefault : Int := -1

def vtAttrBold : UInt32 := (1 : UInt32) <<< 0

def vtAttrDim : UInt32 := (1 : UInt32) <<< 1

def vtAttrItalic : UInt32 := (1 : UInt32) <<< 2

def vtAttrUnderline : UInt32 := (1 : UInt32) <<< 3

def vtAttrBlink : UInt32 := (1 : UInt32) <<< 4

def vtAttrReverse : UInt32 := (1 : UInt32) <<< 5

def vtAttrHidden : UInt32 := (1 : UInt32) <<< 6

def vtAttrStrikethrough : UInt32 := (1 : UInt32) <<< 7

structure VtCell where
  codepoint : UInt32
  fg : Int
  bg : Int
  attrs : UInt32
  deriving DecidableEq, Repr

inductive VtParseState
  | ground
  | escape
  | csi
  | osc
  deriving DecidableEq, Repr

/-- A line of the ring; `cells` is `none` where the pointer is null. -/
structure ScrollbackLine where
  cells : Option (List VtCell)
  cols : Int
  deriving DecidableEq, Repr

structure Vt100 where
  cols : Int
  rows : Int
  screen : List VtCell
  altScreen : List VtCell
  useAlt : Bool
  cursorCol : Int
  cursorRow : Int
  savedCol : Int
  savedRow : Int
  altSavedCol : Int
  altSavedRow : Int
  scrollTop : Int
  scrollBot : Int
  currentAttr : VtCell
  modeOrigin : Bool
  modeAutoWrap : Bool
  modeInsert : Bool
  modeCursorVisible : Bool
  modeBracketedPaste : Bool
  pendingWrap : Bool
  parseState : VtParseState
  params : List Int
  paramCount : Nat
  interm : List UInt8
  oscBuf : List UInt8
  scrollback : List ScrollbackLine
  sbCap : Nat
  sbCount : Nat
  sbHead : Nat
  deriving DecidableEq, Repr

/-- The sizes there is memory for. -/
abbrev Mem := Nat → Bool

/-- `sizeof(VtCell) * cols * rows` in `size_t`. -/
def screenBytes (cols rows : Int) : Nat := u64 (16 * cols * rows).toNat

/-! ### The array of cells -/

def loadAt (cells : List VtCell) (i : Int) : Option VtCell :=
  if 0 ≤ i ∧ i < 2 ^ 31 then cells[i.toNat]? else none

def storeAt (cells : List VtCell) (i : Int) (cell : VtCell) : Option (List VtCell) :=
  if 0 ≤ i ∧ i < 2 ^ 31 ∧ i < cells.length then some (cells.set i.toNat cell) else none

/-- `memmove` of `n` cells. -/
def moveAt (cells : List VtCell) (dst src n : Int) : Option (List VtCell) :=
  if 0 ≤ dst ∧ 0 ≤ src ∧ dst < 2 ^ 31 ∧ src < 2 ^ 31 ∧ dst + n ≤ cells.length ∧
      src + n ≤ cells.length then
    some (blit cells dst.toNat src.toNat n.toNat)
  else none

/-- `v->use_alt ? v->alt_screen : v->screen`. -/
def Vt100.cells (v : Vt100) : List VtCell := if v.useAlt then v.altScreen else v.screen

def Vt100.withCells (v : Vt100) (cells : List VtCell) : Vt100 :=
  { v with
    screen := if v.useAlt then v.screen else cells
    altScreen := if v.useAlt then cells else v.altScreen }

def cellBlank : VtCell :=
  { codepoint := 32, fg := vtColorDefault, bg := vtColorDefault, attrs := 0 }

/-- The cell the clearing functions write. -/
def Vt100.blank (v : Vt100) : VtCell :=
  { cellBlank with fg := v.currentAttr.fg, bg := v.currentAttr.bg }

/-- The index `screen_cell` points to; `none` is its null pointer. -/
def screenCell (v : Vt100) (col row : Int) : Option Int :=
  if col < 0 ∨ v.cols ≤ col ∨ row < 0 ∨ v.rows ≤ row then none else some (row * v.cols + col)

def clearCell (row : Int) (v : Vt100) (col : Int) : Option Vt100 :=
  match screenCell v col row with
  | none => some v
  | some i => (storeAt v.cells i v.blank).map v.withCells

def screenClearLine (v : Vt100) (row colStart colEnd : Int) : Option Vt100 :=
  run (clearCell row) v (upTo colStart (min (colEnd + 1) v.cols))

def screenClearRows (v : Vt100) (rowStart rowEnd : Int) : Option Vt100 :=
  run (fun v r => screenClearLine v r 0 (v.cols - 1)) v (upTo rowStart (min (rowEnd + 1) v.rows))

/-! ### Scrolling -/

/-- The cells `memcpy` takes from a row of the screen. -/
def rowCells (v : Vt100) (r : Int) : Option (List VtCell) :=
  if 0 ≤ r ∧ r * v.cols < 2 ^ 31 ∧ r * v.cols + v.cols ≤ v.cells.length then
    some (row v.cells v.cols.toNat r.toNat)
  else none

/-- The ring with its oldest line given up if it is full. -/
def sbMakeRoom (v : Vt100) : Vt100 :=
  if v.sbCount = v.sbCap then
    { v with sbHead := (v.sbHead + 1) % v.sbCap, sbCount := v.sbCount - 1 }
  else v

def sbPushLine (mem : Mem) (v : Vt100) (r : Int) : Option Vt100 :=
  if v.sbCap = 0 then some v
  else
    let idx := (v.sbHead + v.sbCount) % v.sbCap
    let v := sbMakeRoom v
    if mem (16 * v.cols).toNat then
      (rowCells v r).map fun cells =>
        { v with
          scrollback := v.scrollback.set idx { cells := some cells, cols := v.cols }
          sbCount := v.sbCount + 1 }
    else some { v with scrollback := v.scrollback.set idx { cells := none, cols := v.cols } }

/-- The pushes of `scroll_up`, which always name the row `top`. -/
def sbPushLines (mem : Mem) (v : Vt100) (top n : Int) : Option Vt100 :=
  if v.useAlt then some v else run (fun v _ => sbPushLine mem v top) v (upTo 0 n)

/-- The `memmove` of whole rows. -/
def moveRows (v : Vt100) (dst src lines : Int) : Option Vt100 :=
  if 0 < lines then
    (moveAt v.cells (dst * v.cols) (src * v.cols) (v.cols * lines)).map v.withCells
  else some v

def scrollUp (mem : Mem) (v : Vt100) (top bot n : Int) : Option Vt100 := do
  let v ← sbPushLines mem v top n
  let lines ← checked (bot - top + 1 - n)
  let v ← moveRows v top (top + n) lines
  screenClearRows v (bot - n + 1) bot

def scrollDown (v : Vt100) (top bot n : Int) : Option Vt100 := do
  let lines ← checked (bot - top + 1 - n)
  let v ← moveRows v (top + n) top lines
  let stop ← checked (top + n)
  screenClearRows v top (stop - 1)

/-! ### The cursor -/

def cursorClamp (v : Vt100) : Vt100 :=
  let v := if v.cursorCol < 0 then { v with cursorCol := 0 } else v
  let v := if v.cols ≤ v.cursorCol then { v with cursorCol := v.cols - 1 } else v
  let v := if v.cursorRow < 0 then { v with cursorRow := 0 } else v
  if v.rows ≤ v.cursorRow then { v with cursorRow := v.rows - 1 } else v

def cursorMove (v : Vt100) (col row : Int) : Vt100 :=
  cursorClamp { v with cursorCol := col, cursorRow := row, pendingWrap := false }

def cursorNextLine (mem : Mem) (v : Vt100) : Option Vt100 :=
  if v.cursorRow = v.scrollBot then scrollUp mem v v.scrollTop v.scrollBot 1
  else if v.rows ≤ v.cursorRow + 1 then some { v with cursorRow := v.rows - 1 }
  else some { v with cursorRow := v.cursorRow + 1 }

/-! ### Printing -/

/-- The line break `put_char` owes from the last column. -/
def wrapPending (mem : Mem) (v : Vt100) : Option Vt100 :=
  if v.pendingWrap ∧ v.modeAutoWrap then
    cursorNextLine mem { v with cursorCol := 0, pendingWrap := false }
  else some v

/-- `screen[row * v->cols + c] = screen[row * v->cols + c - 1]`. -/
def shiftCell (v : Vt100) (c : Int) : Option Vt100 := do
  let cell ← loadAt v.cells (v.cursorRow * v.cols + c - 1)
  let cells ← storeAt v.cells (v.cursorRow * v.cols + c) cell
  some (v.withCells cells)

def makeRoom (v : Vt100) : Option Vt100 :=
  if v.modeInsert then run shiftCell v (upTo (v.cursorCol + 1) v.cols).reverse else some v

def writeCell (v : Vt100) (codepoint : UInt32) : Option Vt100 :=
  match screenCell v v.cursorCol v.cursorRow with
  | none => some v
  | some i => (storeAt v.cells i { v.currentAttr with codepoint := codepoint }).map v.withCells

def putChar (mem : Mem) (v : Vt100) (codepoint : UInt32) : Option Vt100 := do
  let v ← wrapPending mem v
  let v ← makeRoom v
  let v ← writeCell v codepoint
  if v.cols - 1 ≤ v.cursorCol then some { v with pendingWrap := true }
  else some { v with cursorCol := v.cursorCol + 1 }

/-! ### Select graphic rendition -/

def resetAttr (a : VtCell) : VtCell :=
  { a with fg := vtColorDefault, bg := vtColorDefault, attrs := 0 }

/-- A code that stands alone. -/
def sgrCode (a : VtCell) (p : Int) : VtCell :=
  if p = 0 then resetAttr a
  else if p = 1 then { a with attrs := a.attrs ||| vtAttrBold }
  else if p = 2 then { a with attrs := a.attrs ||| vtAttrDim }
  else if p = 3 then { a with attrs := a.attrs ||| vtAttrItalic }
  else if p = 4 then { a with attrs := a.attrs ||| vtAttrUnderline }
  else if p = 5 then { a with attrs := a.attrs ||| vtAttrBlink }
  else if p = 7 then { a with attrs := a.attrs ||| vtAttrReverse }
  else if p = 8 then { a with attrs := a.attrs ||| vtAttrHidden }
  else if p = 9 then { a with attrs := a.attrs ||| vtAttrStrikethrough }
  else if p = 22 then { a with attrs := a.attrs &&& ~~~(vtAttrBold ||| vtAttrDim) }
  else if p = 23 then { a with attrs := a.attrs &&& ~~~vtAttrItalic }
  else if p = 24 then { a with attrs := a.attrs &&& ~~~vtAttrUnderline }
  else if p = 25 then { a with attrs := a.attrs &&& ~~~vtAttrBlink }
  else if p = 27 then { a with attrs := a.attrs &&& ~~~vtAttrReverse }
  else if p = 28 then { a with attrs := a.attrs &&& ~~~vtAttrHidden }
  else if p = 29 then { a with attrs := a.attrs &&& ~~~vtAttrStrikethrough }
  else if p = 39 then { a with fg := vtColorDefault }
  else if p = 49 then { a with bg := vtColorDefault }
  else if 30 ≤ p ∧ p ≤ 37 then { a with fg := p - 30 }
  else if 40 ≤ p ∧ p ≤ 47 then { a with bg := p - 40 }
  else if 90 ≤ p ∧ p ≤ 97 then { a with fg := p - 90 + 8 }
  else if 100 ≤ p ∧ p ≤ 107 then { a with bg := p - 100 + 8 }
  else a

/-- The colour of the palette nearest to the three shares. -/
def paletteColor (r g b : Int) : Int := 16 + 36 * r.tdiv 43 + 6 * g.tdiv 43 + b.tdiv 43

/-- The loop over the parameters; an extended colour uses up those that belong to it. -/
def sgrLoop (a : VtCell) : List Int → Option VtCell
  | [] => some a
  | 38 :: 5 :: n :: ps => sgrLoop { a with fg := n } ps
  | 38 :: 2 :: r :: g :: b :: ps =>
    (checked (paletteColor r g b)).bind fun n => sgrLoop { a with fg := n } ps
  | 48 :: 5 :: n :: ps => sgrLoop { a with bg := n } ps
  | 48 :: 2 :: r :: g :: b :: ps =>
    (checked (paletteColor r g b)).bind fun n => sgrLoop { a with bg := n } ps
  | p :: ps => sgrLoop (sgrCode a p) ps

def applySgr (v : Vt100) : Option Vt100 :=
  if v.paramCount = 0 then some { v with currentAttr := resetAttr v.currentAttr }
  else (sgrLoop v.currentAttr (v.params.take v.paramCount)).map fun a => { v with currentAttr := a }

/-! ### Control sequences -/

/-- `params[idx]`, or the default where it is missing or zero. -/
def param (v : Vt100) (idx : Nat) (default : Int) : Int :=
  if v.paramCount ≤ idx ∨ v.params.getD idx 0 = 0 then default else v.params.getD idx 0

/-- What the final byte of a control sequence asks for. -/
inductive Csi
  | cursorUp | cursorDown | cursorForward | cursorBack | nextLine | previousLine | column | position
  | tab | eraseDisplay | eraseLine | insertLines | deleteLines | deleteChars | insertChars
  | scrollUp | scrollDown | eraseChars | backTab | lineAbsolute | sgr | scrollRegion
  | setMode | resetMode | save | restore | ignored
  deriving DecidableEq, Repr

def csiOf : Char → Csi
  | 'A' => .cursorUp
  | 'B' => .cursorDown
  | 'C' => .cursorForward
  | 'D' => .cursorBack
  | 'E' => .nextLine
  | 'F' => .previousLine
  | 'G' => .column
  | 'H' => .position
  | 'f' => .position
  | 'I' => .tab
  | 'J' => .eraseDisplay
  | 'K' => .eraseLine
  | 'L' => .insertLines
  | 'M' => .deleteLines
  | 'P' => .deleteChars
  | '@' => .insertChars
  | 'S' => .scrollUp
  | 'T' => .scrollDown
  | 'X' => .eraseChars
  | 'Z' => .backTab
  | 'd' => .lineAbsolute
  | 'm' => .sgr
  | 'r' => .scrollRegion
  | 'h' => .setMode
  | 'l' => .resetMode
  | 's' => .save
  | 'u' => .restore
  | _ => .ignored

def eraseDisplay (v : Vt100) : Option Vt100 :=
  if param v 0 0 = 0 then
    (screenClearLine v v.cursorRow v.cursorCol (v.cols - 1)).bind fun v =>
      screenClearRows v (v.cursorRow + 1) (v.rows - 1)
  else if param v 0 0 = 1 then
    (screenClearLine v v.cursorRow 0 v.cursorCol).bind fun v =>
      screenClearRows v 0 (v.cursorRow - 1)
  else if param v 0 0 = 2 then screenClearRows v 0 (v.rows - 1)
  else if param v 0 0 = 3 then
    (screenClearRows v 0 (v.rows - 1)).map fun v => { v with sbCount := 0, sbHead := 0 }
  else some v

def eraseLine (v : Vt100) : Option Vt100 :=
  if param v 0 0 = 0 then screenClearLine v v.cursorRow v.cursorCol (v.cols - 1)
  else if param v 0 0 = 1 then screenClearLine v v.cursorRow 0 v.cursorCol
  else if param v 0 0 = 2 then screenClearLine v v.cursorRow 0 (v.cols - 1)
  else some v

/-- The `memmove` inside the row of the cursor. -/
def moveChars (v : Vt100) (dst src remain : Int) : Option Vt100 :=
  if 0 < remain then
    (moveAt v.cells (v.cursorRow * v.cols + dst) (v.cursorRow * v.cols + src) remain).map
      v.withCells
  else some v

def deleteChars (v : Vt100) (p1 : Int) : Option Vt100 :=
  let n := if v.cols - v.cursorCol < p1 then v.cols - v.cursorCol else p1
  (moveChars v v.cursorCol (v.cursorCol + n) (v.cols - v.cursorCol - n)).bind fun v =>
    screenClearLine v v.cursorRow (v.cols - n) (v.cols - 1)

def insertChars (v : Vt100) (p1 : Int) : Option Vt100 :=
  let n := if v.cols - v.cursorCol < p1 then v.cols - v.cursorCol else p1
  (moveChars v (v.cursorCol + n) v.cursorCol (v.cols - v.cursorCol - n)).bind fun v =>
    screenClearLine v v.cursorRow v.cursorCol (v.cursorCol + n - 1)

def scrollRegion (v : Vt100) : Vt100 :=
  let top := param v 0 1 - 1
  let bot := param v 1 v.rows - 1
  let top := if top < 0 then 0 else top
  let bot := if v.rows ≤ bot then v.rows - 1 else bot
  let v :=
    if bot < top then { v with scrollTop := 0, scrollBot := v.rows - 1 }
    else { v with scrollTop := top, scrollBot := bot }
  cursorMove v 0 0

/-- Whether the sequence carries the mark of a private mode. -/
def isPrivate (v : Vt100) : Bool := v.interm.head? == some 63

/-- Modes 47, 1047 and 1049: the other screen is emptied and put into use. -/
def enterAlt (v : Vt100) : Option Vt100 :=
  if v.useAlt then some v
  else
    let v :=
      { v with
        altSavedCol := v.cursorCol
        altSavedRow := v.cursorRow
        altScreen := v.altScreen.map fun _ => { codepoint := 0, fg := 0, bg := 0, attrs := 0 } }
    (screenClearRows v 0 (v.rows - 1)).map fun v => cursorMove { v with useAlt := true } 0 0

def leaveAlt (v : Vt100) : Vt100 :=
  if v.useAlt then cursorMove { v with useAlt := false } v.altSavedCol v.altSavedRow else v

def setMode (v : Vt100) (p : Int) : Option Vt100 :=
  if isPrivate v then
    if p = 6 then some { v with modeOrigin := true }
    else if p = 7 then some { v with modeAutoWrap := true }
    else if p = 25 then some { v with modeCursorVisible := true }
    else if p = 47 ∨ p = 1047 ∨ p = 1049 then enterAlt v
    else if p = 2004 then some { v with modeBracketedPaste := true }
    else some v
  else if p = 4 then some { v with modeInsert := true }
  else some v

def resetMode (v : Vt100) (p : Int) : Option Vt100 :=
  if isPrivate v then
    if p = 6 then some { v with modeOrigin := false }
    else if p = 7 then some { v with modeAutoWrap := false }
    else if p = 25 then some { v with modeCursorVisible := false }
    else if p = 47 ∨ p = 1047 ∨ p = 1049 then some (leaveAlt v)
    else if p = 2004 then some { v with modeBracketedPaste := false }
    else some v
  else if p = 4 then some { v with modeInsert := false }
  else some v

def dispatchCsi (mem : Mem) (v : Vt100) (final : Char) : Option Vt100 :=
  let p1 := param v 0 1
  let p2 := param v 1 1
  match csiOf final with
  | .cursorUp => some (cursorMove v v.cursorCol (v.cursorRow - p1))
  | .cursorDown => (checked (v.cursorRow + p1)).map fun row => cursorMove v v.cursorCol row
  | .cursorForward => (checked (v.cursorCol + p1)).map fun col => cursorMove v col v.cursorRow
  | .cursorBack => some (cursorMove v (v.cursorCol - p1) v.cursorRow)
  | .nextLine => (checked (v.cursorRow + p1)).map fun row => cursorMove v 0 row
  | .previousLine => some (cursorMove v 0 (v.cursorRow - p1))
  | .column => some (cursorMove v (p1 - 1) v.cursorRow)
  | .position => some (cursorMove v (p2 - 1) (p1 - 1))
  | .tab =>
    (checked ((v.cursorCol.tdiv 8 + p1) * 8)).map fun col => cursorClamp { v with cursorCol := col }
  | .eraseDisplay => eraseDisplay v
  | .eraseLine => eraseLine v
  | .insertLines => scrollDown v v.cursorRow v.scrollBot p1
  | .deleteLines => scrollUp mem v v.cursorRow v.scrollBot p1
  | .deleteChars => deleteChars v p1
  | .insertChars => insertChars v p1
  | .scrollUp => scrollUp mem v v.scrollTop v.scrollBot p1
  | .scrollDown => scrollDown v v.scrollTop v.scrollBot p1
  | .eraseChars =>
    (checked (v.cursorCol + p1)).bind fun stop =>
      screenClearLine v v.cursorRow v.cursorCol (stop - 1)
  | .backTab => some (cursorClamp { v with cursorCol := (v.cursorCol - 1).tdiv 8 * 8 })
  | .lineAbsolute => some (cursorMove v v.cursorCol (p1 - 1))
  | .sgr => applySgr v
  | .scrollRegion => some (scrollRegion v)
  | .setMode => run setMode v (v.params.take v.paramCount)
  | .resetMode => run resetMode v (v.params.take v.paramCount)
  | .save => some { v with savedCol := v.cursorCol, savedRow := v.cursorRow }
  | .restore => some (cursorMove v v.savedCol v.savedRow)
  | .ignored => some v

def dispatchEsc (mem : Mem) (v : Vt100) (final : Char) : Option Vt100 :=
  match final with
  | 'D' => cursorNextLine mem v
  | 'E' => cursorNextLine mem { v with cursorCol := 0 }
  | 'M' =>
    if v.cursorRow = v.scrollTop then scrollDown v v.scrollTop v.scrollBot 1
    else if 0 < v.cursorRow then some { v with cursorRow := v.cursorRow - 1 }
    else some v
  | '7' => some { v with savedCol := v.cursorCol, savedRow := v.cursorRow }
  | '8' => some (cursorMove v v.savedCol v.savedRow)
  | 'c' =>
    (screenClearRows v 0 (v.rows - 1)).map fun v =>
      let v := cursorMove v 0 0
      { v with currentAttr := resetAttr v.currentAttr, scrollTop := 0, scrollBot := v.rows - 1 }
  | _ => some v

/-! ### The parser -/

def parserReset (v : Vt100) : Vt100 :=
  { v with params := List.replicate maxParams 0, paramCount := 0, interm := [] }

/-- A further digit of the last parameter, the first parameter begun with it if there is none. -/
def paramPushDigit (v : Vt100) (c : UInt8) : Option Vt100 :=
  let count := if v.paramCount = 0 then 1 else v.paramCount
  (checked (v.params.getD (count - 1) 0 * 10 + (c.toNat - 48 : Nat))).map fun p =>
    { v with paramCount := count, params := v.params.set (count - 1) p }

def paramNext (v : Vt100) : Vt100 :=
  if v.paramCount < maxParams then { v with paramCount := v.paramCount + 1 } else v

def intermPush (v : Vt100) (c : UInt8) : Vt100 :=
  if v.interm.length < maxInterm then { v with interm := v.interm ++ [c] } else v

def feedOsc (v : Vt100) (c : UInt8) : Vt100 :=
  let escaped := v.oscBuf.getLast? == some 0x1B
  if c = 0x07 ∨ c = 0x9C ∨ c = 0x5C ∧ escaped then
    { v with oscBuf := if escaped then v.oscBuf.dropLast else v.oscBuf, parseState := .ground }
  else if v.oscBuf.length < maxOscLen - 1 then { v with oscBuf := v.oscBuf ++ [c] }
  else v

/-- A control character in the ground state. -/
def feedControl (mem : Mem) (v : Vt100) (c : UInt8) : Option Vt100 :=
  if c = 0x08 then
    some { v with
      cursorCol := if 0 < v.cursorCol then v.cursorCol - 1 else v.cursorCol
      pendingWrap := false }
  else if c = 0x09 then
    (checked ((v.cursorCol.tdiv 8 + 1) * 8)).map fun col =>
      { v with cursorCol := if v.cols ≤ col then v.cols - 1 else col, pendingWrap := false }
  else if c = 0x0A ∨ c = 0x0B ∨ c = 0x0C then cursorNextLine mem v
  else if c = 0x0D then some { v with cursorCol := 0, pendingWrap := false }
  else if c = 0x1B then some { parserReset v with parseState := .escape }
  else some v

def feedGround (mem : Mem) (v : Vt100) (c : UInt8) : Option Vt100 :=
  if c < 0x20 then feedControl mem v c else putChar mem v c.toUInt32

def feedEscape (mem : Mem) (v : Vt100) (c : UInt8) : Option Vt100 :=
  if c = 0x5B then some { parserReset v with parseState := .csi }
  else if c = 0x5D then some { v with oscBuf := [], parseState := .osc }
  else if c = 0x50 ∨ c = 0x58 ∨ c = 0x5E ∨ c = 0x5F then
    some { v with parseState := .osc, oscBuf := [] }
  else if 0x20 ≤ c ∧ c ≤ 0x2F then some (intermPush v c)
  else if 0x30 ≤ c ∧ c ≤ 0x7E then
    (dispatchEsc mem v (Char.ofNat c.toNat)).map fun v => { v with parseState := .ground }
  else some { v with parseState := .ground }

def feedCsi (mem : Mem) (v : Vt100) (c : UInt8) : Option Vt100 :=
  if 0x30 ≤ c ∧ c ≤ 0x39 then paramPushDigit v c
  else if c = 0x3B then some (paramNext v)
  else if c = 0x3A then some (paramNext v)
  else if 0x20 ≤ c ∧ c ≤ 0x2F then some (intermPush v c)
  else if 0x40 ≤ c ∧ c ≤ 0x7E then
    (dispatchCsi mem v (Char.ofNat c.toNat)).map fun v => { v with parseState := .ground }
  else if c = 0x1B then some { parserReset v with parseState := .escape }
  else some { v with parseState := .ground }

/-- The loop body of `vt100_feed`. -/
def feedByte (mem : Mem) (v : Vt100) (c : UInt8) : Option Vt100 :=
  match v.parseState with
  | .osc => some (feedOsc v c)
  | .ground => feedGround mem v c
  | .escape => feedEscape mem v c
  | .csi => feedCsi mem v c

def vt100Feed (mem : Mem) (v : Vt100) (buf : List UInt8) : Option Vt100 := run (feedByte mem) v buf

/-! ### The public functions -/

/-- The fields `vt100_new` sets before it clears the screen. -/
def vt100Init (cols rows : Int) (cells : List VtCell) : Vt100 :=
  { cols := cols, rows := rows, screen := cells, altScreen := cells, useAlt := false
    cursorCol := 0, cursorRow := 0, savedCol := 0, savedRow := 0, altSavedCol := 0, altSavedRow := 0
    scrollTop := 0, scrollBot := rows - 1
    currentAttr := { codepoint := 0, fg := vtColorDefault, bg := vtColorDefault, attrs := 0 }
    modeOrigin := false, modeAutoWrap := true, modeInsert := false, modeCursorVisible := true
    modeBracketedPaste := false, pendingWrap := false, parseState := .ground
    params := List.replicate maxParams 0, paramCount := 0, interm := [], oscBuf := []
    scrollback := [], sbCap := 0, sbCount := 0, sbHead := 0 }

/-- A new terminal, or `some none` where `vt100_new` returns null; `fresh` is what stands in
memory that has just been allocated. -/
def vt100New (mem : Mem) (fresh : Nat → VtCell) (cols rows scrollback : Int) :
    Option (Option Vt100) :=
  if cols ≤ 0 ∨ rows ≤ 0 then some none
  else if ¬ mem 728 then some none
  else if ¬ mem (screenBytes cols rows) then some none
  else
    let v := vt100Init cols rows ((List.range (screenBytes cols rows / 16)).map fresh)
    (screenClearRows v 0 (rows - 1)).map fun v =>
      if 0 < scrollback ∧ mem (16 * scrollback).toNat then
        some { v with
          scrollback := List.replicate scrollback.toNat { cells := none, cols := 0 }
          sbCap := scrollback.toNat }
      else some v

/-- One row of the copy `vt100_resize` makes. -/
def copyCells (old : List VtCell) (oldCols cols copyCols : Int) (new : List VtCell) (r : Int) :
    Option (List VtCell) :=
  run (fun new c => (loadAt old (r * oldCols + c)).bind (storeAt new (r * cols + c))) new
    (upTo 0 copyCols)

def vt100Resize (mem : Mem) (v : Vt100) (cols rows : Int) : Option Vt100 :=
  if cols ≤ 0 ∨ rows ≤ 0 then some v
  else if ¬ mem (screenBytes cols rows) then some v
  else do
    let area ← checked (cols * rows)
    let new := List.replicate area.toNat cellBlank
    let screen ← run (copyCells v.screen v.cols cols (min cols v.cols)) new
      (upTo 0 (min rows v.rows))
    some { v with
      screen := screen
      altScreen := new
      cols := cols
      rows := rows
      cursorCol := if cols ≤ v.cursorCol then cols - 1 else v.cursorCol
      cursorRow := if rows ≤ v.cursorRow then rows - 1 else v.cursorRow
      scrollTop := 0
      scrollBot := rows - 1 }

/-- The line of the ring at an index, the newest line first. -/
def vt100ScrollbackLine (v : Vt100) (index : Nat) : Option ScrollbackLine :=
  if v.sbCount ≤ index then none
  else v.scrollback[(v.sbHead + v.sbCount - 1 - index) % v.sbCap]?

/-- What the terminal is asked to do. -/
inductive Event
  | feed (mem : Mem) (buf : List UInt8)
  | resize (mem : Mem) (cols rows : Int)

def perform (v : Vt100) : Event → Option Vt100
  | .feed mem buf => vt100Feed mem v buf
  | .resize mem cols rows => vt100Resize mem v cols rows

end Nv0ken.Terminal
