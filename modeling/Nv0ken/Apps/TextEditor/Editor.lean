/-
Typing in the text editor (`apps/text_editor/editor.c`).

`editor_type_char` replaces a selection by the character, completes an opening bracket or
quote with the closing one, and steps over a closing one that is already there.
-/
import Nv0ken.Apps.TextEditor.Buffer

namespace Nv0ken.TextEditor

/-- `PAIRS`, opening and closing characters: round, square and curly brackets, double and
single quotes, backquotes. -/
def pairs : List (UInt8 × UInt8) := [(40, 41), (91, 93), (123, 125), (34, 34), (39, 39), (96, 96)]

def pairClose (c : UInt8) : UInt8 := ((pairs.find? fun p => p.1 == c).map Prod.snd).getD 0

def isOpen (c : UInt8) : Bool := pairClose c != 0

def isClose (c : UInt8) : Bool := pairs.any fun p => p.2 == c && p.1 != p.2

/-- One of the three kinds of quotes. -/
def isQuote (c : UInt8) : Bool := c == 34 || c == 39 || c == 96

structure Editor where
  buf : Buffer
  autoPair : Bool
  deriving DecidableEq, Repr

inductive EditorAction
  | move
  | insert
  deriving DecidableEq, Repr

def bufferInsertChar (fresh : Fresh) (b : Buffer) (pos : Nat) (c : UInt8) : Option (Int × Buffer) :=
  bufferInsert fresh b pos [c]

/-- The end of `editor_type_char`: the character inserted and the cursor moved. -/
def typePlain (fresh : Fresh) (b : Buffer) (c : UInt8) : Option (EditorAction × Buffer) := do
  let (_, b) ← bufferInsertChar fresh b b.cursor c
  let b ← bufferCursorMove b 1
  return (.insert, b)

/-- `editor_type_char` behind the deletion of the selection. -/
def typeInto (fresh : Fresh) (autoPair : Bool) (b : Buffer) (c : UInt8) :
    Option (EditorAction × Buffer) :=
  let next := bufferCharAt b b.cursor
  if autoPair && isOpen c then
    if isQuote c && next == c then (bufferCursorMove b 1).map fun b => (.move, b)
    else do
      let pos := b.cursor
      let (_, b) ← bufferInsert fresh b pos [c, pairClose c]
      return (.insert, bufferCursorSet b (Word.u64 (pos + 1)))
  else if autoPair && isClose c && next == c then (bufferCursorMove b 1).map fun b => (.move, b)
  else typePlain fresh b c

def editorTypeChar (fresh : Fresh) (e : Editor) (c : UInt8) : Option (EditorAction × Editor) := do
  let b ← if bufferHasSelection e.buf then (bufferDeleteSelection e.buf).map Prod.snd else
    some e.buf
  let (action, b) ← typeInto fresh e.autoPair b c
  return (action, { e with buf := b })

/-- Characters typed one by one. -/
def typeChars (fresh : Fresh) : Editor → List UInt8 → Option Editor
  | e, [] => some e
  | e, c :: cs => (editorTypeChar fresh e c).bind fun (_, e) => typeChars fresh e cs

end Nv0ken.TextEditor
