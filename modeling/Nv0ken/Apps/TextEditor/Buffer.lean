/-
The buffer of the text editor (`apps/text_editor/buffer.c`).

The text stands in one block with a gap at the place of the last edit; beside it the
buffer keeps the cursor and the mark, the records of the edits for undo, and a cache of
the places where lines start, which an edit only marks as out of date.

Allocations are granted, with two things about them kept: the C library answers a request
of no bytes with `NULL`, and a block comes with whatever the memory held.  A function
gives `none` where the behaviour of the C code is undefined: `free` of a pointer nothing
was ever stored in, a copy outside a block, a signed overflow.
-/
import Nv0ken.Lib.Gap
import Nv0ken.Lib.Word

namespace Nv0ken.TextEditor

open Nv0ken.Buffer (overwrite byteAt shift)
open Nv0ken.Word (u64 u64Sub toInt32 ofInt)

def gapInitial : Nat := 4096
def gapGrow : Nat := 4096
def undoCap : Nat := 256
def lineCacheCap : Nat := 8192

def newline : UInt8 := 10
def space : UInt8 := 32

/-- What new memory holds: for each request, told apart by the size of the block it
enlarges, the byte at every place. -/
abbrev Fresh := Nat → Nat → UInt8

def Fresh.block (fresh : Fresh) (old n : Nat) : List UInt8 := (List.range n).map (fresh old)

/-- Whether a request for `n` bytes gets a block. -/
def xmalloc (n : Nat) : Bool := n != 0

inductive UndoType
  | insert
  | delete
  deriving DecidableEq, Repr

structure UndoRecord where
  type : UndoType
  pos : Nat
  /-- `none` for `NULL`. -/
  text : Option (List UInt8)
  len : Nat
  deriving DecidableEq, Repr

/-- A record of zeros, as `memset` leaves it. -/
def UndoRecord.zero : UndoRecord := ⟨.insert, 0, none, 0⟩

structure Buffer where
  /-- The block; `alloc` is its length. -/
  data : List UInt8
  gapStart : Nat
  gapEnd : Nat
  cursor : Nat
  mark : Nat
  markActive : Bool
  modified : Bool
  filename : Option (List UInt8)
  /-- The array of records; one nothing was ever written to is `none`. -/
  undoStack : Option (List (Option UndoRecord))
  undoTop : Nat
  inUndo : Bool
  /-- The first `line_count` places of the array. -/
  lineOffsets : List Nat
  lineCap : Nat
  linesDirty : Bool
  deriving DecidableEq, Repr

/-- `undo_cap`, zero before there is an array. -/
def Buffer.undoCap (b : Buffer) : Nat := (b.undoStack.getD []).length

/-! ### Gap buffer low-level -/

def bufLength (b : Buffer) : Nat := u64Sub b.data.length (u64Sub b.gapEnd b.gapStart)

def gapMove (b : Buffer) (pos : Nat) : Buffer :=
  if pos = b.gapStart then b
  else if pos < b.gapStart then
    let move := b.gapStart - pos
    { b with
      data := shift b.data (b.gapEnd - move) pos move
      gapEnd := b.gapEnd - move
      gapStart := b.gapStart - move }
  else
    let move := pos - b.gapStart
    { b with
      data := shift b.data b.gapStart b.gapEnd move
      gapStart := b.gapStart + move
      gapEnd := b.gapEnd + move }

def gapEnsure (fresh : Fresh) (b : Buffer) (needed : Nat) : Option Buffer :=
  let gapSize := u64Sub b.gapEnd b.gapStart
  if gapSize ≥ needed then some b
  else
    let grow := needed - gapSize + gapGrow
    -- A sum that wraps asks for a smaller block, and the copy below ends outside it.
    if b.data.length + grow < 2 ^ 64 then
      some { b with
        data := shift (b.data ++ fresh.block b.data.length grow) (b.gapEnd + grow) b.gapEnd
          (b.data.length - b.gapEnd)
        gapEnd := b.gapEnd + grow }
    else none

def phys (b : Buffer) (pos : Nat) : Nat :=
  if pos < b.gapStart then pos else u64 (pos + u64Sub b.gapEnd b.gapStart)

/-! ### Line cache -/

/-- The loop of `lines_rebuild` over the positions still to read. -/
def rebuildLoop (b : Buffer) : List Nat → List Nat → Nat → Option (List Nat × Nat)
  | [], offsets, cap => some (offsets, cap)
  | i :: is, offsets, cap =>
    if byteAt b.data (phys b i) = newline then
      if offsets.length ≥ cap then
        -- `int new_cap = b->line_cap * 2`
        if cap * 2 < 2 ^ 31 then rebuildLoop b is (offsets ++ [i + 1]) (cap * 2) else none
      else rebuildLoop b is (offsets ++ [i + 1]) cap
    else rebuildLoop b is offsets cap

def linesRebuild (b : Buffer) : Option Buffer := do
  let cap := if b.lineCap < lineCacheCap then lineCacheCap else b.lineCap
  let (offsets, cap) ← rebuildLoop b (List.range (bufLength b)) [0] cap
  return { b with lineOffsets := offsets, lineCap := cap, linesDirty := false }

def linesMarkDirty (b : Buffer) : Buffer := { b with linesDirty := true }

def linesEnsure (b : Buffer) : Option Buffer := if b.linesDirty then linesRebuild b else some b

/-! ### Undo stack -/

/-- `free` of a record's text, which is then `NULL`. -/
def UndoRecord.clear (r : UndoRecord) : UndoRecord := { r with text := none, len := 0 }

/-- `undo_clear_from` on the array of records. -/
def undoClearFrom (stack : List (Option UndoRecord)) (top : Nat) :
    Option (List (Option UndoRecord)) := do
  let cleared ← (stack.drop top).mapM fun r => r.map fun r => some r.clear
  return stack.take top ++ cleared

def undoPush (b : Buffer) (type : UndoType) (pos : Nat) (text : List UInt8) : Option Buffer :=
  if b.inUndo then some b
  else do
    let (stack, top) := match b.undoStack with
      | none => (List.replicate undoCap (some UndoRecord.zero), 0)
      | some stack => (stack, b.undoTop)
    let stack ← undoClearFrom stack top
    -- `realloc` doubles the array and leaves the new half as it is.
    let stack := if top ≥ stack.length then stack ++ List.replicate stack.length none else stack
    if xmalloc (u64 (text.length + 1)) then
      return { b with
        undoStack := some (stack.set top (some ⟨type, pos, some text, text.length⟩))
        undoTop := top + 1 }
    else
      return { b with
        undoStack := some (stack.set top (some ⟨type, pos, none, text.length⟩))
        undoTop := top }

/-! ### Public: lifecycle and queries -/

def bufferNew (fresh : Fresh) : Buffer where
  data := fresh.block 0 gapInitial
  gapStart := 0
  gapEnd := gapInitial
  cursor := 0
  mark := 0
  markActive := false
  modified := false
  filename := none
  undoStack := none
  undoTop := 0
  inUndo := false
  lineOffsets := []
  lineCap := 0
  linesDirty := true

def bufferLength (b : Buffer) : Nat := bufLength b

def bufferCharAt (b : Buffer) (pos : Nat) : UInt8 :=
  if pos ≥ bufLength b then 0 else byteAt b.data (phys b pos)

def bufferLineCount (b : Buffer) : Option (Nat × Buffer) := do
  let b ← linesEnsure b
  return (b.lineOffsets.length, b)

/-- The place `line_offsets[i]`. -/
def Buffer.lineOffset (b : Buffer) (i : Int) : Nat := b.lineOffsets.getD i.toNat 0

/-- A line number moved into the range of the lines there are. -/
def Buffer.clampLine (b : Buffer) (line : Int) : Int :=
  let line := if line < 0 then 0 else line
  if line ≥ b.lineOffsets.length then b.lineOffsets.length - 1 else line

/-- The search of `buffer_pos_to_lc`: the line found, zero for none.  Each round leaves a
smaller range, so `line_count` rounds are enough. -/
def findLine (b : Buffer) (pos : Nat) : Nat → Int → Int → Int
  | 0, _, _ => 0
  | fuel + 1, lo, hi =>
    if lo ≤ hi then
      let mid := (lo + hi) / 2
      if b.lineOffset mid ≤ pos ∧
          (mid + 1 ≥ b.lineOffsets.length ∨ b.lineOffset (mid + 1) > pos) then mid
      else if b.lineOffset mid > pos then findLine b pos fuel lo (mid - 1)
      else findLine b pos fuel (mid + 1) hi
    else 0

def bufferPosToLc (b : Buffer) (pos : Nat) : Option ((Int × Int) × Buffer) := do
  let b ← linesEnsure b
  let found := findLine b pos b.lineOffsets.length 0 (b.lineOffsets.length - 1)
  return ((found, toInt32 (u64Sub pos (b.lineOffset found))), b)

def bufferLcToPos (b : Buffer) (line col : Int) : Option (Nat × Buffer) := do
  let b ← linesEnsure b
  let line := b.clampLine line
  let lineStart := b.lineOffset line
  let lineEnd :=
    if line + 1 < b.lineOffsets.length then u64Sub (b.lineOffset (line + 1)) 1 else bufLength b
  let lineLen := u64Sub lineEnd lineStart
  let col := if ofInt col > lineLen then toInt32 lineLen else col
  return (u64 (lineStart + ofInt col), b)

def bufferLineStart (b : Buffer) (line : Int) : Option (Nat × Buffer) := do
  let b ← linesEnsure b
  return (b.lineOffset (b.clampLine line), b)

def bufferLineEnd (b : Buffer) (line : Int) : Option (Nat × Buffer) := do
  let b ← linesEnsure b
  let line := b.clampLine line
  let next := if line + 1 < b.lineOffsets.length then b.lineOffset (line + 1) else bufLength b
  return (if next > 0 ∧ bufferCharAt b (next - 1) = newline then next - 1 else next, b)

/-! ### Public: cursor movement -/

def bufferCursorSet (b : Buffer) (pos : Nat) : Buffer :=
  { b with cursor := if pos > bufLength b then bufLength b else pos }

def bufferCursorMove (b : Buffer) (delta : Int) : Option Buffer :=
  if delta < 0 then
    -- `-delta` of the least `int` overflows.
    if delta ≤ -2 ^ 31 then none
    else
      let d := (-delta).toNat
      some { b with cursor := if b.cursor ≥ d then b.cursor - d else 0 }
  else
    let cursor := u64 (b.cursor + delta.toNat)
    some { b with cursor := if cursor > bufLength b then bufLength b else cursor }

def bufferCursorLine (b : Buffer) (delta : Int) : Option Buffer := do
  let ((line, col), b) ← bufferPosToLc b b.cursor
  if line + delta < -2 ^ 31 ∨ line + delta ≥ 2 ^ 31 then none
  else
    let (pos, b) ← bufferLcToPos b (line + delta) col
    return { b with cursor := pos }

def bufferCursorHome (b : Buffer) : Option Buffer := do
  let ((line, _), b) ← bufferPosToLc b b.cursor
  let (pos, b) ← bufferLineStart b line
  return { b with cursor := pos }

def bufferCursorEnd (b : Buffer) : Option Buffer := do
  let ((line, _), b) ← bufferPosToLc b b.cursor
  let (pos, b) ← bufferLineEnd b line
  return { b with cursor := pos }

/-- `while (pos < len && keep(char at pos)) pos++`, at most `fuel` rounds. -/
def advance (b : Buffer) (keep : UInt8 → Bool) : Nat → Nat → Nat
  | 0, pos => pos
  | fuel + 1, pos =>
    if pos < bufLength b ∧ keep (bufferCharAt b pos) then advance b keep fuel (pos + 1) else pos

/-- `while (pos > 0 && keep(pos)) pos--`. -/
def retreat (keep : Nat → Bool) : Nat → Nat
  | 0 => 0
  | pos + 1 => if keep (pos + 1) then retreat keep pos else pos + 1

def isWordChar (c : UInt8) : Bool := c != space && c != newline

def bufferCursorWordForward (b : Buffer) : Buffer :=
  let pos := advance b (· == space) (bufLength b) b.cursor
  { b with cursor := advance b isWordChar (bufLength b) pos }

def bufferCursorWordBack (b : Buffer) : Buffer :=
  if b.cursor = 0 then b
  else
    let pos := retreat (fun p => bufferCharAt b p == space) (b.cursor - 1)
    { b with cursor := retreat (fun p => isWordChar (bufferCharAt b (p - 1))) pos }

/-! ### Public: insert and delete -/

def bufferInsert (fresh : Fresh) (b : Buffer) (pos : Nat) (text : List UInt8) :
    Option (Int × Buffer) :=
  if text.length = 0 then some (-1, b)
  else do
    let pos := if pos > bufLength b then bufLength b else pos
    let b ← gapEnsure fresh b text.length
    let b := gapMove b pos
    let b := { b with
      data := overwrite b.data b.gapStart text
      gapStart := u64 (b.gapStart + text.length) }
    let b := { b with
      cursor := if b.cursor ≥ pos then u64 (b.cursor + text.length) else b.cursor
      modified := true }
    let b ← undoPush (linesMarkDirty b) .insert pos text
    return (0, b)

def bufferDelete (b : Buffer) (pos len : Nat) : Option (Int × Buffer) :=
  if len = 0 then some (-1, b)
  else if pos ≥ bufLength b then some (-1, b)
  else
    let len := if u64 (pos + len) > bufLength b then bufLength b - pos else len
    if xmalloc (u64 (len + 1)) then do
      let deleted := (List.range len).map fun i => bufferCharAt b (u64 (pos + i))
      let b ← undoPush b .delete pos deleted
      let b := gapMove b pos
      let b := { b with gapEnd := u64 (b.gapEnd + len) }
      let b := { b with
        cursor :=
          if b.cursor > pos then
            if b.cursor ≤ u64 (pos + len) then pos else u64Sub b.cursor len
          else b.cursor
        modified := true }
      return (0, linesMarkDirty b)
    else some (-1, b)

def bufferDeleteRange (b : Buffer) (start stop : Nat) : Option (Int × Buffer) :=
  if stop ≤ start then some (-1, b) else bufferDelete b start (stop - start)

def bufferDeleteLine (b : Buffer) (line : Int) : Option (Int × Buffer) := do
  let b ← linesEnsure b
  if line < 0 ∨ line ≥ b.lineOffsets.length then return (-1, b)
  else
    let (start, b) ← bufferLineStart b line
    let stop := if line + 1 < b.lineOffsets.length then b.lineOffset (line + 1) else bufLength b
    bufferDelete b start (u64Sub stop start)

/-! ### Public: selection -/

def bufferMarkSet (b : Buffer) (pos : Nat) : Buffer := { b with mark := pos, markActive := true }

def bufferMarkClear (b : Buffer) : Buffer := { b with markActive := false }

def bufferHasSelection (b : Buffer) : Bool := b.markActive && b.mark != b.cursor

/-- Start and end of the selection. -/
def bufferSelectionRange (b : Buffer) : Nat × Nat :=
  if b.cursor < b.mark then (b.cursor, b.mark) else (b.mark, b.cursor)

/-- The bytes of the selection; behind them the C string has its terminating zero. -/
def bufferSelectionText (b : Buffer) : Option (List UInt8) :=
  if bufferHasSelection b then
    let (start, stop) := bufferSelectionRange b
    if xmalloc (u64 (stop - start + 1)) then
      some ((List.range (stop - start)).map fun i => bufferCharAt b (u64 (start + i)))
    else none
  else none

def bufferDeleteSelection (b : Buffer) : Option (Int × Buffer) :=
  if bufferHasSelection b then
    let (start, stop) := bufferSelectionRange b
    bufferDelete { bufferMarkClear b with cursor := start } start (stop - start)
  else some (-1, b)

/-! ### Public: clipboard helpers -/

/-- The bytes handed out, with `*out_len`, the length up to the first zero. -/
def bufferCopy (b : Buffer) : Option (List UInt8 × Nat) :=
  (bufferSelectionText b).map fun text => (text, (text.takeWhile (· != 0)).length)

def bufferCut (b : Buffer) : Option (Int × Buffer) :=
  match bufferCopy b with
  | none => some (-1, b)
  | some _ => (bufferDeleteSelection b).map fun (_, b) => (0, b)

def bufferPaste (fresh : Fresh) (b : Buffer) (text : List UInt8) : Option (Int × Buffer) :=
  if text.length = 0 then some (-1, b)
  else do
    let b ← if bufferHasSelection b then (bufferDeleteSelection b).map Prod.snd else some b
    let (r, b) ← bufferInsert fresh b b.cursor text
    return (r, if r = 0 then { b with cursor := u64 (b.cursor + text.length) } else b)

/-! ### Public: undo and redo -/

/-- `buffer_insert` of a record's text, which may be `NULL`. -/
def insertRecord (fresh : Fresh) (b : Buffer) (r : UndoRecord) : Option Buffer :=
  match r.text with
  | none => some b
  | some text => (bufferInsert fresh b r.pos text).map Prod.snd

/-- The record's edit made again, with the cursor behind it. -/
def insertAgain (fresh : Fresh) (b : Buffer) (r : UndoRecord) : Option Buffer :=
  (insertRecord fresh b r).map fun b => { b with cursor := u64 (r.pos + r.len) }

/-- The record's text deleted, with the cursor in its place. -/
def deleteAgain (b : Buffer) (r : UndoRecord) : Option Buffer :=
  (bufferDelete b r.pos r.len).map fun (_, b) => { b with cursor := r.pos }

/-- The record at an index; reading one that was never written is undefined. -/
def Buffer.undoRecord (b : Buffer) (i : Nat) : Option UndoRecord :=
  b.undoStack.bind fun stack => stack[i]?.join

def bufferUndo (fresh : Fresh) (b : Buffer) : Option (Int × Buffer) :=
  if b.undoTop = 0 then some (-1, b)
  else do
    let r ← b.undoRecord (b.undoTop - 1)
    let b := { b with inUndo := true }
    let b ← match r.type with
      | .insert => deleteAgain b r
      | .delete => insertAgain fresh b r
    return (0, { b with inUndo := false, undoTop := b.undoTop - 1 })

def bufferRedo (fresh : Fresh) (b : Buffer) : Option (Int × Buffer) :=
  if b.undoTop ≥ b.undoCap then some (-1, b)
  else do
    let r ← b.undoRecord b.undoTop
    if r.text = none then return (-1, b)
    else
      let b := { b with inUndo := true }
      let b ← match r.type with
        | .insert => insertAgain fresh b r
        | .delete => deleteAgain b r
      return (0, { b with inUndo := false, undoTop := b.undoTop + 1 })

/-! ### Public: load -/

/-- What the files answer while a file is loaded. -/
inductive FileAnswer
  /-- `fopen` fails. -/
  | absent
  /-- `ftell` gives a negative size. -/
  | unseekable
  /-- The file holds `bytes`; the larger block is granted or not, and `fread` delivers the
  first `got` of them. -/
  | file (bytes : List UInt8) (granted : Bool) (got : Nat)
  deriving DecidableEq, Repr

/-- `realloc`: as much of the old block as fits, then new memory. -/
def xrealloc (fresh : Fresh) (data : List UInt8) (n : Nat) : List UInt8 :=
  data.take n ++ fresh.block data.length (n - data.length)

def bufferLoad (fresh : Fresh) (b : Buffer) (path : List UInt8) : FileAnswer → Int × Buffer
  | .absent => (-1, b)
  | .unseekable => (-1, b)
  | .file bytes granted got =>
    if bytes.length = 0 then
      (0, linesMarkDirty { b with filename := some path, modified := false, cursor := 0 })
    else if granted then
      let newAlloc := bytes.length + gapInitial
      let b := { b with data := overwrite (xrealloc fresh b.data newAlloc) 0 (bytes.take got) }
      if got < bytes.length then (-1, b)
      else
        (0, linesMarkDirty { b with
          gapStart := bytes.length
          gapEnd := newAlloc
          filename := some path
          cursor := 0
          modified := false
          undoTop := 0 })
    else (-1, b)

/-! ### Sequences of operations -/

inductive CursorOp
  | set (pos : UInt64)
  | move (delta : Int)
  | line (delta : Int)
  | home
  | lineEnd
  | wordForward
  | wordBack
  deriving DecidableEq, Repr

inductive Op
  | insert (pos : UInt64) (text : List UInt8)
  | delete (pos len : UInt64)
  | deleteRange (start stop : UInt64)
  | deleteLine (line : Int)
  | cursor (op : CursorOp)
  deriving DecidableEq, Repr

def CursorOp.step (b : Buffer) : CursorOp → Option Buffer
  | .set pos => some (bufferCursorSet b pos.toNat)
  | .move delta => bufferCursorMove b delta
  | .line delta => bufferCursorLine b delta
  | .home => bufferCursorHome b
  | .lineEnd => bufferCursorEnd b
  | .wordForward => some (bufferCursorWordForward b)
  | .wordBack => some (bufferCursorWordBack b)

/-- The buffer after one operation. -/
def Op.step (fresh : Fresh) (b : Buffer) : Op → Option Buffer
  | .insert pos text => (bufferInsert fresh b pos.toNat text).map Prod.snd
  | .delete pos len => (bufferDelete b pos.toNat len.toNat).map Prod.snd
  | .deleteRange start stop => (bufferDeleteRange b start.toNat stop.toNat).map Prod.snd
  | .deleteLine line => (bufferDeleteLine b line).map Prod.snd
  | .cursor op => op.step b

/-- The buffer after a sequence of operations. -/
def run (fresh : Fresh) (b : Buffer) (ops : List Op) : Option Buffer :=
  ops.foldlM (fun b op => op.step fresh b) b

/-- The characters read back one by one. -/
def readBack (b : Buffer) : List UInt8 := (List.range (bufferLength b)).map (bufferCharAt b)

end Nv0ken.TextEditor
