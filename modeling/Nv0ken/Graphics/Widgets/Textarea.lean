/-
Text areas: `graphics/widgets/textarea.c`.

The array of lines is the list of those in use, so `line_count` is its length; a line is its
bytes.  Memory is taken to be there when it is asked for.  A step that the C code leaves
undefined has no result: a row is read that is not there, the array of lines is moved past
its end, or the indent of a new line does not fit into the buffer that is made for it.  The
two functions that change the text come a second time, with no result either where the
capacity of a line or a number of the scroll bar leaves `int`, or the bar divides by zero.

What the clipboard holds when it is asked is an argument; what is put into it, callbacks of
the owner and blinking are left out.
-/
import Nv0ken.Graphics.Widgets.Scrollbar
import Mathlib.Data.List.Basic

namespace Nv0ken.Widgets

def textareaMaxLines : Nat := 4096
def textareaLineCap : Nat := 1024
def textareaUndoDepth : Nat := 64
def textareaTabWidth : Nat := 4

def cellW : Int := 7
def cellH : Int := 16
def padX : Int := 4
def padY : Int := 2
def gutterW : Int := 40
def barW : Int := 12
def barH : Int := 12

def newline : UInt8 := 10
def space : UInt8 := 32

abbrev Lines := List (List UInt8)

structure TAPos where
  row : Nat
  col : Nat
  deriving DecidableEq, Repr

inductive TAOpType
  | insert
  | delete
  deriving DecidableEq, Repr

structure TAUndo where
  type : TAOpType
  start : TAPos
  finish : TAPos
  text : List UInt8
  deriving DecidableEq, Repr

structure Textarea where
  base : Widget
  lines : Lines := [[]]
  cursor : TAPos := ⟨0, 0⟩
  mark : TAPos := ⟨0, 0⟩
  hasSelection : Bool := false
  scrollRow : Int := 0
  scrollCol : Int := 0
  showGutter : Bool := true
  readonly : Bool := false
  undoStack : List TAUndo := []
  undoPos : Nat := 0
  vscroll : Scrollbar
  hscroll : Scrollbar
  deriving DecidableEq, Repr

def textareaNew (x y w h : Int) : Textarea where
  base := { x := x, y := y, w := w, h := h }
  vscroll := scrollbarNew (x + w - barW) y barW (h - barH) .vertical
  hscroll := scrollbarNew x (y + h - barH) (w - barW) barH .horizontal

def Textarea.gutter (ta : Textarea) : Int := if ta.showGutter then gutterW else 0

def visibleRows (ta : Textarea) : Int := (ta.base.h - barH - padY * 2).tdiv cellH

def visibleCols (ta : Textarea) : Int := (ta.base.w - barW - ta.gutter - padX * 2).tdiv cellW

/-- `scrollbar_set_range(ta->vscroll, 0, ta->line_count, visible_rows(ta))`. -/
def syncRange (ta : Textarea) : Textarea :=
  { ta with vscroll := scrollbarSetRange ta.vscroll 0 ta.lines.length (visibleRows ta) }

/-! ### Lines and positions -/

def lineInsert (line : List UInt8) (col : Nat) (text : List UInt8) : List UInt8 :=
  line.take col ++ text ++ line.drop col

def lineDelete (line : List UInt8) (col count : Nat) : List UInt8 :=
  line.take col ++ line.drop (col + count)

def lineLen (lines : Lines) (row : Nat) : Nat := (lines.getD row []).length

def clampPos (lines : Lines) (row col : Int) : TAPos :=
  let row := min row.toNat (lines.length - 1)
  ⟨row, min col.toNat (lineLen lines row)⟩

def posLt (a b : TAPos) : Bool := a.row < b.row ∨ a.row = b.row ∧ a.col < b.col

def posMin (a b : TAPos) : TAPos := if posLt a b then a else b

def posMax (a b : TAPos) : TAPos := if posLt a b then b else a

def Textarea.selStart (ta : Textarea) : TAPos := posMin ta.cursor ta.mark

def Textarea.selEnd (ta : Textarea) : TAPos := posMax ta.cursor ta.mark

/-! ### Content -/

def textareaClear (ta : Textarea) : Textarea :=
  { ta with
    lines := [[]]
    cursor := ⟨0, 0⟩
    mark := ⟨0, 0⟩
    hasSelection := false
    scrollRow := 0
    scrollCol := 0
    vscroll := scrollbarSetValue ta.vscroll 0
    hscroll := scrollbarSetValue ta.hscroll 0 }

/-- The lines of a text; nothing comes behind the last newline. -/
def textRows : List UInt8 → Lines
  | [] => []
  | c :: text =>
    if c = newline then [] :: textRows text
    else
      match textRows text with
      | [] => [[c]]
      | line :: rest => (c :: line) :: rest

def textareaSetText (ta : Textarea) (text : List UInt8) : Textarea :=
  let ta := textareaClear ta
  if text = [] then ta else syncRange { ta with lines := (textRows text).take textareaMaxLines }

/-- `textarea_get_text`. -/
def textareaGetText (ta : Textarea) : List UInt8 := List.intercalate [newline] ta.lines

/-- A line is split in two. -/
def splitLine (lines : Lines) (row col : Nat) : Lines :=
  lines.take row ++ [(lines.getD row []).take col, (lines.getD row []).drop col] ++
    lines.drop (row + 1)

/-- The loop of `textarea_insert_at`; it ends early at a newline that would begin row 4096. -/
def insertLoop : List UInt8 → Lines → Nat → Nat → Option Lines
  | [], lines, _, _ => some lines
  | c :: text, lines, row, col =>
    if c = newline then
      if row + 1 ≥ textareaMaxLines then some lines
      else if lines.length ≥ textareaMaxLines then none
      else insertLoop text (splitLine lines row col) (row + 1) 0
    else insertLoop text (lines.modify row fun line => lineInsert line col [c]) row (col + 1)

def textareaInsertAt (ta : Textarea) (row col : Int) (text : List UInt8) : Option Textarea :=
  if text = [] then some ta
  else
    let pos := clampPos ta.lines row col
    (insertLoop text ta.lines pos.row pos.col).map fun lines => syncRange { ta with lines := lines }

/-- What is left of the lines when those between two positions are joined. -/
def joinLines (lines : Lines) (start finish : TAPos) : Lines :=
  lines.take start.row ++
    [(lines.getD start.row []).take start.col ++ (lines.getD finish.row []).drop finish.col] ++
    lines.drop (finish.row + 1)

def textareaDeleteRange (ta : Textarea) (startRow startCol endRow endCol : Int) : Textarea :=
  let start := clampPos ta.lines startRow startCol
  let finish := clampPos ta.lines endRow endCol
  if !posLt start finish then ta
  else if start.row = finish.row then
    { ta with
      lines := ta.lines.modify start.row fun line =>
        lineDelete line start.col (finish.col - start.col) }
  else syncRange { ta with lines := joinLines ta.lines start finish }

/-! ### Edits where every step is defined -/

/-- The doubling of `line_ensure` in an `int`, which a capacity of at least `need` ends. -/
def lineEnsure (need : Nat) : Nat → Nat → Option Nat
  | 0, _ => none
  | fuel + 1, cap =>
    if need ≤ cap then some cap
    else if cap * 2 < 2 ^ 31 then lineEnsure need fuel (cap * 2)
    else none

/-- A line can get this long.  Its capacity begins with 64 and is only ever doubled, and from
every such capacity the same lengths are reached. -/
def lineFits (length : Nat) : Bool := (lineEnsure (length + 1) 32 64).isSome

/-- The lines `insertLoop` passes through fit. -/
def insertFits : List UInt8 → Lines → Nat → Nat → Bool
  | [], _, _, _ => true
  | c :: text, lines, row, col =>
    if c = newline then
      if row + 1 ≥ textareaMaxLines then true
      else lineFits (lineLen lines row - col) &&
        insertFits text (splitLine lines row col) (row + 1) 0
    else
      lineFits (lineLen lines row + 1) &&
        insertFits text (lines.modify row fun line => lineInsert line col [c]) row (col + 1)

/-- The scroll bar can be set to a number of lines. -/
def RangeDefined (ta : Textarea) (count : Nat) : Prop :=
  IsInt (ta.base.h - barH - padY * 2) ∧
    ThumbDefined (scrollbarSetRange ta.vscroll 0 count (visibleRows ta))

instance (ta : Textarea) (count : Nat) : Decidable (RangeDefined ta count) :=
  inferInstanceAs (Decidable (_ ∧ _))

def syncRangeChecked (ta : Textarea) : Option Textarea :=
  if RangeDefined ta ta.lines.length then some (syncRange ta) else none

def textareaInsertAtChecked (ta : Textarea) (row col : Int) (text : List UInt8) : Option Textarea :=
  if text = [] then some ta
  else
    let pos := clampPos ta.lines row col
    if insertFits text ta.lines pos.row pos.col then
      (insertLoop text ta.lines pos.row pos.col).bind fun lines =>
        syncRangeChecked { ta with lines := lines }
    else none

def textareaDeleteRangeChecked (ta : Textarea) (startRow startCol endRow endCol : Int) :
    Option Textarea :=
  let start := clampPos ta.lines startRow startCol
  let finish := clampPos ta.lines endRow endCol
  if !posLt start finish ∨ start.row = finish.row then
    some (textareaDeleteRange ta startRow startCol endRow endCol)
  else if lineFits (start.col + (lineLen ta.lines finish.row - finish.col)) then
    syncRangeChecked { ta with lines := joinLines ta.lines start finish }
  else none

/-! ### Edits at positions -/

def insertAtPos (ta : Textarea) (pos : TAPos) (text : List UInt8) : Option Textarea :=
  textareaInsertAt ta pos.row pos.col text

def deleteBetween (ta : Textarea) (start finish : TAPos) : Textarea :=
  textareaDeleteRange ta start.row start.col finish.row finish.col

/-! ### Scrolling to the cursor -/

def textareaScrollToCursor (ta : Textarea) : Textarea :=
  let vr := if visibleRows ta < 1 then 1 else visibleRows ta
  let vc := if visibleCols ta < 1 then 1 else visibleCols ta
  let row := if (ta.cursor.row : Int) < ta.scrollRow then (ta.cursor.row : Int) else ta.scrollRow
  let row := if (ta.cursor.row : Int) ≥ row + vr then ta.cursor.row - vr + 1 else row
  let col := if (ta.cursor.col : Int) < ta.scrollCol then (ta.cursor.col : Int) else ta.scrollCol
  let col := if (ta.cursor.col : Int) ≥ col + vc then ta.cursor.col - vc + 1 else col
  { ta with
    scrollRow := row
    scrollCol := col
    vscroll := scrollbarSetValue ta.vscroll row
    hscroll := scrollbarSetValue ta.hscroll col }

/-! ### Undo and redo -/

def undoPush (ta : Textarea) (type : TAOpType) (start finish : TAPos) (text : List UInt8) :
    Textarea :=
  let stack := ta.undoStack.take ta.undoPos
  let stack := if stack.length ≥ textareaUndoDepth then stack.drop 1 else stack
  { ta with
    undoStack := stack ++ [{ type := type, start := start, finish := finish, text := text }]
    undoPos := stack.length + 1 }

def setCursorClamped (ta : Textarea) (pos : TAPos) : Textarea :=
  textareaScrollToCursor { ta with cursor := clampPos ta.lines pos.row pos.col }

def textareaUndo (ta : Textarea) : Option Textarea :=
  if ta.undoPos = 0 then some ta
  else
    match ta.undoStack[ta.undoPos - 1]? with
    | none => none
    | some u => do
        let ta := { ta with undoPos := ta.undoPos - 1 }
        let ta ← match u.type with
          | .insert => some (deleteBetween ta u.start u.finish)
          | .delete => insertAtPos ta u.start u.text
        some (setCursorClamped ta u.start)

def textareaRedo (ta : Textarea) : Option Textarea :=
  match ta.undoStack[ta.undoPos]? with
  | none => some ta
  | some u => do
      let (ta, pos) ← match u.type with
        | .insert => (insertAtPos ta u.start u.text).map fun ta => (ta, u.finish)
        | .delete => some (deleteBetween ta u.start u.finish, u.start)
      some (setCursorClamped { ta with undoPos := ta.undoPos + 1 } pos)

/-! ### The selection -/

/-- The text between two positions. -/
def textBetween (lines : Lines) (start finish : TAPos) : List UInt8 :=
  if start.row = finish.row then ((lines.getD start.row []).take finish.col).drop start.col
  else
    List.intercalate [newline]
      ((lines.getD start.row []).drop start.col ::
        (lines.drop (start.row + 1)).take (finish.row - start.row - 1) ++
          [(lines.getD finish.row []).take finish.col])

def textareaSelectedText (ta : Textarea) : List UInt8 :=
  if ta.hasSelection then textBetween ta.lines ta.selStart ta.selEnd else []

/-- What `strlen` sees of a text. -/
def cString (text : List UInt8) : List UInt8 := text.takeWhile (· ≠ 0)

/-- The selection is deleted and the cursor put where it began. -/
def dropSelection (ta : Textarea) : Textarea :=
  { deleteBetween ta ta.selStart ta.selEnd with cursor := ta.selStart, hasSelection := false }

/-- The selection is deleted with a record of it. -/
def dropSelectionRecorded (ta : Textarea) : Textarea :=
  let ta' := undoPush ta .delete ta.selStart ta.selEnd (cString (textareaSelectedText ta))
  dropSelection ta'

/-- The rows that the cursor and an active mark are in are there. -/
def Textarea.rowsThere (ta : Textarea) : Bool :=
  ta.cursor.row < ta.lines.length && (!ta.hasSelection || ta.mark.row < ta.lines.length)

/-! ### Edits -/

def setLine (ta : Textarea) (row : Nat) (f : List UInt8 → List UInt8) : Textarea :=
  { ta with lines := ta.lines.modify row f }

/-- `(char)cp`. -/
def charOf (cp : Nat) : UInt8 := UInt8.ofNat cp

def textareaInsertChar (ta : Textarea) (cp : Nat) : Option Textarea :=
  if ta.readonly || cp = 13 then some ta
  else if !ta.rowsThere then none
  else
    let ta := if ta.hasSelection then dropSelectionRecorded ta else ta
    let before := ta.cursor
    let ta := undoPush ta .insert before ⟨before.row, before.col + 1⟩ [charOf cp]
    let ta := setLine ta before.row fun line => lineInsert line before.col [charOf cp]
    some (textareaScrollToCursor { ta with cursor := ⟨before.row, before.col + 1⟩ })

/-- The indent of the line that a newline at `col` begins: the leading spaces, and one tab more
behind an opening character. -/
def newIndent (line : List UInt8) (col : Nat) : Nat :=
  let indent := (line.takeWhile (· = space)).length
  let prev := if col > 0 then line.getD (col - 1) 0 else 0
  if prev = 123 ∨ prev = 58 ∨ prev = 40 then indent + textareaTabWidth else indent

def textareaNewline (ta : Textarea) : Option Textarea :=
  if ta.readonly then some ta
  else
    let ta := if ta.hasSelection then dropSelection ta else ta
    let indent := newIndent (ta.lines.getD ta.cursor.row []) ta.cursor.col
    if ta.cursor.row ≥ ta.lines.length ∨ 1 + indent > textareaLineCap then none
    else
      let text := newline :: List.replicate indent space
      let before := ta.cursor
      let after : TAPos := ⟨before.row + 1, indent⟩
      (insertAtPos (undoPush ta .insert before after text) before text).map fun ta =>
        textareaScrollToCursor { ta with cursor := after }

def textareaBackspace (ta : Textarea) : Option Textarea :=
  if ta.readonly then some ta
  else if !ta.rowsThere then none
  else if ta.hasSelection then some (textareaScrollToCursor (dropSelectionRecorded ta))
  else
    let pos := ta.cursor
    if pos.col = 0 ∧ pos.row = 0 then some ta
    else if pos.col > 0 then
      let prev : TAPos := ⟨pos.row, pos.col - 1⟩
      let ta := undoPush ta .delete prev pos [(ta.lines.getD pos.row []).getD (pos.col - 1) 0]
      let ta := setLine ta pos.row fun line => lineDelete line (pos.col - 1) 1
      some (textareaScrollToCursor { ta with cursor := prev })
    else
      let prev : TAPos := ⟨pos.row - 1, lineLen ta.lines (pos.row - 1)⟩
      let ta := undoPush ta .delete prev pos [newline]
      some (textareaScrollToCursor { deleteBetween ta prev ⟨pos.row, 0⟩ with cursor := prev })

def textareaDeleteFwd (ta : Textarea) : Option Textarea :=
  if ta.readonly then some ta
  else if ta.hasSelection then textareaBackspace ta
  else if !ta.rowsThere then none
  else
    let pos := ta.cursor
    if pos.row = ta.lines.length - 1 ∧ pos.col = lineLen ta.lines pos.row then some ta
    else if pos.col < lineLen ta.lines pos.row then
      let ta := undoPush ta .delete pos ⟨pos.row, pos.col + 1⟩
        [(ta.lines.getD pos.row []).getD pos.col 0]
      some (setLine ta pos.row fun line => lineDelete line pos.col 1)
    else
      let next : TAPos := ⟨pos.row + 1, 0⟩
      some (deleteBetween (undoPush ta .delete pos next [newline]) pos next)

/-- The rows from the cursor's to the mark's, or the cursor's alone. -/
def Textarea.selectedRow (ta : Textarea) (row : Nat) : Bool :=
  let other := if ta.hasSelection then ta.mark.row else ta.cursor.row
  min ta.cursor.row other ≤ row ∧ row ≤ max ta.cursor.row other

/-- Every selected line changed. -/
def mapSelected (ta : Textarea) (f : List UInt8 → List UInt8) : Lines :=
  ta.lines.mapIdx fun row line => if ta.selectedRow row then f line else line

def textareaIndent (ta : Textarea) : Option Textarea :=
  if ta.readonly then some ta
  else if !ta.rowsThere then none
  else
    some { ta with
      lines := mapSelected ta fun line => List.replicate textareaTabWidth space ++ line
      cursor := ⟨ta.cursor.row, ta.cursor.col + textareaTabWidth⟩
      mark := if ta.hasSelection then ⟨ta.mark.row, ta.mark.col + textareaTabWidth⟩ else ta.mark }

/-- How many spaces a dedent removes. -/
def dedentBy (line : List UInt8) : Nat :=
  ((line.take textareaTabWidth).takeWhile (· = space)).length

def textareaDedent (ta : Textarea) : Option Textarea :=
  if ta.readonly then some ta
  else if !ta.rowsThere then none
  else
    some { ta with
      lines := mapSelected ta fun line => line.drop (dedentBy line)
      cursor := ⟨ta.cursor.row, ta.cursor.col - textareaTabWidth⟩ }

def textareaDeleteLine (ta : Textarea) : Option Textarea :=
  if ta.readonly || ta.lines.length ≤ 1 then some ta
  else if ta.cursor.row ≥ ta.lines.length then none
  else
    let lines := ta.lines.eraseIdx ta.cursor.row
    some { ta with lines := lines, cursor := ⟨min ta.cursor.row (lines.length - 1), 0⟩ }

def textareaDuplicateLine (ta : Textarea) : Option Textarea :=
  if ta.readonly || ta.lines.length ≥ textareaMaxLines - 1 then some ta
  else if ta.cursor.row ≥ ta.lines.length then none
  else
    some { ta with
      lines := ta.lines.insertIdx (ta.cursor.row + 1) (ta.lines.getD ta.cursor.row [])
      cursor := ⟨ta.cursor.row + 1, ta.cursor.col⟩ }

def textareaCut (ta : Textarea) : Option Textarea :=
  if !ta.hasSelection then some ta
  else if !ta.rowsThere then none
  else if cString (textareaSelectedText ta) = [] then some ta
  else some (textareaScrollToCursor (dropSelection ta))

/-- The cursor after a text: one row down at each newline. -/
def advancePos (pos : TAPos) (text : List UInt8) : TAPos :=
  text.foldl (fun pos c => if c = newline then ⟨pos.row + 1, 0⟩ else ⟨pos.row, pos.col + 1⟩) pos

def textareaPaste (ta : Textarea) (clip : Option (List UInt8)) : Option Textarea :=
  match clip with
  | none => some ta
  | some clip =>
    let ta := if ta.hasSelection then dropSelection ta else ta
    let after := advancePos ta.cursor clip
    (insertAtPos ta ta.cursor clip).map fun ta => setCursorClamped ta after

/-! ### Cursor and selection -/

def textareaSetCursor (ta : Textarea) (row col : Int) : Textarea :=
  textareaScrollToCursor { ta with cursor := clampPos ta.lines row col, hasSelection := false }

def textareaSelectAll (ta : Textarea) : Textarea :=
  { ta with
    mark := ⟨0, 0⟩
    cursor := ⟨ta.lines.length - 1, lineLen ta.lines (ta.lines.length - 1)⟩
    hasSelection := true }

def textareaSelectRange (ta : Textarea) (startRow startCol endRow endCol : Int) : Textarea :=
  let start := clampPos ta.lines startRow startCol
  let finish := clampPos ta.lines endRow endCol
  { ta with
    mark := start
    cursor := finish
    hasSelection := posLt start finish || posLt finish start }

def textareaClearSelection (ta : Textarea) : Textarea := { ta with hasSelection := false }

/-- What a movement key does to the selection before the cursor moves. -/
def beginMove (ta : Textarea) (shift : Bool) : Textarea :=
  if !shift then { ta with hasSelection := false }
  else if !ta.hasSelection then { ta with mark := ta.cursor }
  else ta

/-- The cursor of `move_cursor` with a step sideways, in a row that is there. -/
def moveCol (lines : Lines) (row : Nat) (col : Int) : TAPos :=
  let pos : TAPos :=
    if col < 0 then
      if row > 0 then ⟨row - 1, lineLen lines (row - 1)⟩ else ⟨row, 0⟩
    else ⟨row, col.toNat⟩
  if pos.col > lineLen lines pos.row then
    if pos.row + 1 < lines.length then ⟨pos.row + 1, 0⟩ else ⟨pos.row, lineLen lines pos.row⟩
  else pos

def moveCursor (ta : Textarea) (dr dc : Int) (shift : Bool) : Textarea :=
  let ta := beginMove ta shift
  let row := min ((ta.cursor.row : Int) + dr).toNat (ta.lines.length - 1)
  let pos : TAPos :=
    if dc ≠ 0 then moveCol ta.lines row (ta.cursor.col + dc)
    else if dr ≠ 0 then ⟨row, min ta.cursor.col (lineLen ta.lines row)⟩
    else ⟨row, ta.cursor.col⟩
  let ta := { ta with cursor := pos }
  let ta := if shift then { ta with hasSelection := decide (ta.cursor ≠ ta.mark) } else ta
  textareaScrollToCursor ta

def moveHome (ta : Textarea) (shift : Bool) : Textarea :=
  let ta := beginMove ta shift
  let ta := { ta with cursor := ⟨ta.cursor.row, 0⟩ }
  let ta := if shift then { ta with hasSelection := decide (ta.cursor ≠ ta.mark) } else ta
  textareaScrollToCursor ta

def moveEnd (ta : Textarea) (shift : Bool) : Textarea :=
  let ta := beginMove ta shift
  let ta := { ta with cursor := ⟨ta.cursor.row, lineLen ta.lines ta.cursor.row⟩ }
  let ta := if shift then { ta with hasSelection := true } else ta
  textareaScrollToCursor ta

/-! ### Events -/

/-- An event for the vertical bar, with its callback. -/
def vscrollEvent (ta : Textarea) (ev : Event) : Textarea :=
  match scrollbarOnEvent ta.vscroll ev with
  | (sb, none) => { ta with vscroll := sb }
  | (sb, some value) => { ta with vscroll := sb, scrollRow := value }

def hscrollEvent (ta : Textarea) (ev : Event) : Textarea :=
  match scrollbarOnEvent ta.hscroll ev with
  | (sb, none) => { ta with hscroll := sb }
  | (sb, some value) => { ta with hscroll := sb, scrollCol := value }

/-- The position under a point. -/
def pointPos (ta : Textarea) (x y : Int) : TAPos :=
  let row := ta.scrollRow + (y - (ta.base.y + padY)).tdiv cellH
  let col := ta.scrollCol + (x - (ta.base.x + ta.gutter + padX)).tdiv cellW
  clampPos ta.lines row col

def textareaClick (ta : Textarea) (x y : Int) (mods : Nat) : Textarea :=
  let pos := pointPos ta x y
  let ta :=
    if mods &&& 1 ≠ 0 then
      { ta with
        mark := if ta.hasSelection then ta.mark else ta.cursor
        cursor := pos
        hasSelection := true }
    else { ta with cursor := pos, hasSelection := false }
  textareaScrollToCursor ta

def textareaWheel (ta : Textarea) (dy : Int) : Textarea :=
  let row := ta.scrollRow + dy * 3
  let row := if row < 0 then 0 else row
  let top := ta.lines.length - visibleRows ta
  let top := if top < 0 then 0 else top
  let row := if row > top then top else row
  { ta with scrollRow := row, vscroll := scrollbarSetValue ta.vscroll row }

/-- What a key stands for. -/
inductive KeyAction
  | selectAll
  | undo
  | redo
  | copy
  | cut
  | paste
  | deleteLine
  | duplicateLine
  | move (dr dc : Int) (shift : Bool)
  | page (down shift : Bool)
  | home (shift : Bool)
  | toEnd (shift : Bool)
  | backspace
  | deleteFwd
  | newline
  | indent
  | dedent
  | insert (cp : Nat)
  | nothing
  deriving DecidableEq, Repr

/-- The dispatch on a key in `textarea_on_event`. -/
def keyAction (key cp mods : Nat) : KeyAction :=
  let ctrl : Bool := mods &&& 2 ≠ 0
  let shift : Bool := mods &&& 1 ≠ 0
  if ctrl && key = 97 then .selectAll
  else if ctrl && key = 122 then .undo
  else if ctrl && key = 121 then .redo
  else if ctrl && key = 99 then .copy
  else if ctrl && key = 120 then .cut
  else if ctrl && key = 118 then .paste
  else if ctrl && key = 100 then .deleteLine
  else if ctrl && key = 108 then .duplicateLine
  else if key = keyLeft then .move 0 (-1) shift
  else if key = keyRight then .move 0 1 shift
  else if key = keyUp then .move (-1) 0 shift
  else if key = keyDown then .move 1 0 shift
  else if key = keyPageUp then .page false shift
  else if key = keyPageDown then .page true shift
  else if key = keyHome then .home shift
  else if key = keyEnd then .toEnd shift
  else if key = keyBackspace then .backspace
  else if key = keyDelete then .deleteFwd
  else if key = 13 ∨ key = 10 then .newline
  else if key = 9 then if shift then .dedent else .indent
  else if cp ≥ 32 ∧ cp < 65536 ∧ !ctrl then .insert cp
  else .nothing

def textareaKey (ta : Textarea) (clip : Option (List UInt8)) : KeyAction → Option Textarea
  | .selectAll => some (textareaSelectAll ta)
  | .undo => textareaUndo ta
  | .redo => textareaRedo ta
  | .copy => some ta
  | .cut => textareaCut ta
  | .paste => textareaPaste ta clip
  | .deleteLine => textareaDeleteLine ta
  | .duplicateLine => textareaDuplicateLine ta
  | .move dr dc shift => some (moveCursor ta dr dc shift)
  | .page down shift =>
    some (moveCursor ta (if down then visibleRows ta else -visibleRows ta) 0 shift)
  | .home shift => some (moveHome ta shift)
  | .toEnd shift => some (moveEnd ta shift)
  | .backspace => textareaBackspace ta
  | .deleteFwd => textareaDeleteFwd ta
  | .newline => textareaNewline ta
  | .indent => textareaIndent ta
  | .dedent => textareaDedent ta
  | .insert cp => textareaInsertChar ta cp
  | .nothing => some ta

def textareaOnEvent (ta : Textarea) (clip : Option (List UInt8)) : Event → Option Textarea
  | .focusIn => some ta
  | .focusOut => some { ta with hasSelection := false }
  | .mouseDown x y mods =>
    if widgetHit ta.vscroll.base x y then some (vscrollEvent ta (.mouseDown x y mods))
    else if widgetHit ta.hscroll.base x y then some (hscrollEvent ta (.mouseDown x y mods))
    else some (textareaClick ta x y mods)
  | .mouseMove x y =>
    let ta := if widgetHit ta.vscroll.base x y then vscrollEvent ta (.mouseMove x y) else ta
    some (if widgetHit ta.hscroll.base x y then hscrollEvent ta (.mouseMove x y) else ta)
  | .mouseUp x y => some (hscrollEvent (vscrollEvent ta (.mouseUp x y)) (.mouseUp x y))
  | .scroll dy => some (textareaWheel ta dy)
  | .keyDown key cp mods =>
    if ta.base.focused then textareaKey ta clip (keyAction key cp mods) else some ta
  | .other => some ta

end Nv0ken.Widgets
