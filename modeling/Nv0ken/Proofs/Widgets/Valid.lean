/-
The cursor and the selection of a text area.

Every operation keeps the number of lines in bounds and the cursor and an active mark on
positions that are there, with these exceptions, which `StepOk` names.  A newline is put in
where there is no room for a line, or with an indent longer than the buffer for it.  Lines are
pasted or brought back by undo and redo into a full area above its last line.  Dedent, delete
line, duplicate line, undo and redo leave the mark of an active selection where it was, and so
do the public insert and delete leave both positions; that does no harm as long as what they
change stands behind these positions.
-/
import Nv0ken.Proofs.Widgets.EditSteps
import Nv0ken.Lib.Run

namespace Nv0ken.Widgets

open Nv0ken.Lines Run List Option

variable {ta ta' : Textarea} {lines : Lines} {pos : TAPos} {clip : Option (List UInt8)}

/-- The number of records in effect is that of some of the records. -/
structure Textarea.Inv (ta : Textarea) : Prop where
  valid : ta.Valid
  records : ta.undoPos ≤ ta.undoStack.length

@[grind =] theorem inv_iff : ta.Inv ↔ ta.Valid ∧ ta.undoPos ≤ ta.undoStack.length :=
  ⟨fun h => ⟨h.valid, h.records⟩, fun h => ⟨h.1, h.2⟩⟩

/-! ### The condition -/

/-- Undoing or redoing a record does not touch the text before the mark, and the lines it brings
back fit. -/
def RecordOk (ta : Textarea) (u : TAUndo) (brings : TAOpType) : Prop :=
  (ta.hasSelection = true → NotBehind ta.mark (clampPos ta.lines u.start.row u.start.col)) ∧
    (u.type = brings →
      Room ta.lines.length (clampPos ta.lines u.start.row u.start.col).row u.text)

/-- The condition on a key. -/
def KeyOk (ta : Textarea) (clip : Option (List UInt8)) : KeyAction → Prop
  | .undo => ta.undoPos = 0 ∨ ∀ u, ta.undoStack[ta.undoPos - 1]? = some u → RecordOk ta u .delete
  | .redo => ∀ u, ta.undoStack[ta.undoPos]? = some u → RecordOk ta u .insert
  | .paste => ∀ text, clip = some text → Room ta.linesLeft ta.editPos.row text
  | .newline => ta.readonly = true ∨ ta.linesLeft < textareaMaxLines ∧
      1 + newIndent ta.editLine ta.editPos.col ≤ textareaLineCap
  | .dedent => ta.readonly = true ∨ ta.hasSelection = false ∨
      ta.mark.col + dedentBy (ta.lines.getD ta.mark.row []) ≤ lineLen ta.lines ta.mark.row
  | .deleteLine => ta.readonly = true ∨ ta.lines.length ≤ 1 ∨ ta.hasSelection = false ∨
      ta.mark.row < ta.cursor.row ∨ ValidPos ta.lines ⟨ta.mark.row + 1, ta.mark.col⟩
  | .duplicateLine => ta.readonly = true ∨ ta.lines.length ≥ textareaMaxLines - 1 ∨
      ta.hasSelection = false ∨ ta.mark.row ≤ ta.cursor.row ∨
      ta.mark.col ≤ lineLen ta.lines (ta.mark.row - 1)
  | _ => True

/-- The operations of a text area.  A key stands for the operation it calls, and `bar` for an
event that goes to one of the bars directly. -/
inductive TAOp
  | setText (text : List UInt8)
  | clear
  | insertAt (row col : Int) (text : List UInt8)
  | deleteRange (startRow startCol endRow endCol : Int)
  | setCursor (row col : Int)
  | selectRange (startRow startCol endRow endCol : Int)
  | clearSelection
  | setReadonly (ro : Bool)
  | setShowGutter (show' : Bool)
  | setFocused (focused : Bool)
  | key (action : KeyAction) (clip : Option (List UInt8))
  | event (ev : Event) (clip : Option (List UInt8))
  | vbar (ev : Event)
  | hbar (ev : Event)

def textareaStep (ta : Textarea) : TAOp → Option Textarea
  | .setText text => some (textareaSetText ta text)
  | .clear => some (textareaClear ta)
  | .insertAt row col text => textareaInsertAt ta row col text
  | .deleteRange a b c d => some (textareaDeleteRange ta a b c d)
  | .setCursor row col => some (textareaSetCursor ta row col)
  | .selectRange a b c d => some (textareaSelectRange ta a b c d)
  | .clearSelection => some (textareaClearSelection ta)
  | .setReadonly ro => some { ta with readonly := ro }
  | .setShowGutter show' => some { ta with showGutter := show' }
  | .setFocused focused => some { ta with base := { ta.base with focused := focused } }
  | .key action clip => textareaKey ta clip action
  | .event ev clip => textareaOnEvent ta clip ev
  | .vbar ev => some (vscrollEvent ta ev)
  | .hbar ev => some (hscrollEvent ta ev)

/-- The positions of the text area are not behind another. -/
def PositionsNotBehind (ta : Textarea) (pos : TAPos) : Prop :=
  NotBehind ta.cursor pos ∧ (ta.hasSelection = true → NotBehind ta.mark pos)

/-- The condition on a step. -/
def StepOk (ta : Textarea) : TAOp → Prop
  | .insertAt row col text =>
    (newline ∈ text → PositionsNotBehind ta (clampPos ta.lines row col)) ∧
      Room ta.lines.length (clampPos ta.lines row col).row text
  | .deleteRange a b c d =>
    posLt (clampPos ta.lines a b) (clampPos ta.lines c d) = true →
      PositionsNotBehind ta (clampPos ta.lines a b)
  | .key action clip => KeyOk ta clip action
  | .event (.keyDown key cp mods) clip =>
    ta.base.focused = true → KeyOk ta clip (keyAction key cp mods)
  | _ => True

/-! ### Keys -/

/-- A call has a result with the invariant. -/
def Kept (r : Option Textarea) : Prop := ∃ ta', r = some ta' ∧ ta'.Inv

@[grind =] theorem kept_some : Kept (some ta) ↔ ta.Inv := by
  unfold Kept
  simp

theorem records_undoPush (ta : Textarea) (u : TAUndo) :
    (undoPush ta u.type u.start u.finish u.text).undoPos =
      (undoPush ta u.type u.start u.finish u.text).undoStack.length := by
  unfold undoPush
  simp

theorem Pushed.inv {u : TAUndo} {src dst : Lines × List UInt8} (h : Pushed ta ta' u src dst)
    (hbound : ta'.lines.length ≤ textareaMaxLines) : ta'.Inv := by
  obtain ⟨⟨y, ys, -, hlines⟩, hcursor, hsel, hstack, hpos⟩ := h
  have hrecords := records_undoPush ta u
  grind

/-- A deletion leaves at most the lines there were. -/
theorem DeletesOne.inv (h : DeletesOne ta ta') (hvalid : ta.Valid) : ta'.Inv := by
  obtain ⟨p, q, text, hpushed, hle, -⟩ := h
  obtain ⟨y, ys, hlines, hlines'⟩ := hpushed.lines
  exact hpushed.inv (by grind)

theorem kept_insertChar (h : ta.Inv) (cp : Nat) : Kept (textareaInsertChar ta cp) := by
  by_cases hskip : ta.readonly = true ∨ cp = 13
  · unfold textareaInsertChar
    grind
  · obtain ⟨hvalid, -⟩ := recorded_spec h.valid
    obtain ⟨ta', p, heq, hpushed⟩ := @insertChar_pushed ta h.valid (by grind) cp (by grind)
    refine ⟨ta', heq, hpushed.inv ?_⟩
    obtain ⟨y, ys, hlines, hlines'⟩ := hpushed.lines
    grind

theorem kept_newline (h : ta.Inv) (hok : KeyOk ta clip .newline) : Kept (textareaNewline ta) := by
  by_cases hwrite : ta.readonly = true
  · unfold textareaNewline
    grind
  · obtain ⟨hroom, hfits⟩ := hok.resolve_left hwrite
    obtain ⟨ta', p, heq, hbound, hpushed⟩ :=
      newline_pushed h.valid (by simpa using hwrite) hroom hfits
    exact ⟨ta', heq, hpushed.inv hbound⟩

theorem records_dropSelection (ta : Textarea) :
    (dropSelection ta).undoStack = ta.undoStack ∧ (dropSelection ta).undoPos = ta.undoPos := by
  obtain ⟨vscroll, heq⟩ :=
    deleteRange_eq ta ta.selStart.row ta.selStart.col ta.selEnd.row ta.selEnd.col
  unfold dropSelection deleteBetween
  rw [heq]
  exact ⟨rfl, rfl⟩

section

variable (h : ta.Inv)
include h

/-- What `textarea_scroll_to_cursor` changes does not matter here. -/
theorem Textarea.Inv.scroll : (textareaScrollToCursor ta).Inv :=
  ⟨{ h.valid with }, h.records⟩

theorem inv_dropSelection (hsel : ta.hasSelection = true) : (dropSelection ta).Inv := by
  have hvalid := valid_dropSelection h.valid hsel
  have hrecords := records_dropSelection ta
  grind

theorem inv_undoPush (u : TAUndo) : (undoPush ta u.type u.start u.finish u.text).Inv :=
  ⟨{ h.valid with }, Nat.le_of_eq (records_undoPush ta u)⟩

theorem kept_backspace : Kept (textareaBackspace ta) := by
  by_cases hplain : ta.readonly = false ∧ ta.hasSelection = false
  · rcases backspace_deletes h.valid hplain.1 hplain.2 with heq | ⟨ta', heq, hdel⟩
    · exact ⟨ta, heq, h⟩
    · exact ⟨ta', heq, hdel.inv h.valid⟩
  · unfold textareaBackspace
    rw [rowsThere_of_valid h.valid]
    split_ifs with hwrite hrows hsel
    · exact kept_some.2 h
    · exact absurd hrows (by decide)
    · exact kept_some.2 (inv_dropSelection (inv_undoPush h
        ⟨.delete, ta.selStart, ta.selEnd, cString (textareaSelectedText ta)⟩) hsel).scroll
    all_goals grind

theorem kept_deleteFwd : Kept (textareaDeleteFwd ta) := by
  by_cases hplain : ta.readonly = false ∧ ta.hasSelection = false
  · rcases deleteFwd_deletes h.valid hplain.1 hplain.2 with heq | ⟨ta', heq, hdel⟩
    · exact ⟨ta, heq, h⟩
    · exact ⟨ta', heq, hdel.inv h.valid⟩
  · have hback := kept_backspace h
    unfold textareaDeleteFwd
    grind

end

/-! ### Lines and selected rows -/

@[grind =] theorem lineLen_eraseIdx (lines : Lines) (i row : Nat) :
    lineLen (lines.eraseIdx i) row = lineLen lines (if row < i then row else row + 1) := by
  unfold lineLen
  grind

@[grind =] theorem lineLen_insertIdx {i : Nat} (hi : i < lines.length) (row : Nat) :
    lineLen (lines.insertIdx (i + 1) (lines.getD i [])) row =
      lineLen lines (if row ≤ i then row else row - 1) := by
  unfold lineLen
  grind

@[grind =] theorem length_mapSelected (ta : Textarea) (f : List UInt8 → List UInt8) :
    (mapSelected ta f).length = ta.lines.length := by
  exact length_mapIdx

@[grind =] theorem lineLen_mapSelected (ta : Textarea) (f : List UInt8 → List UInt8) {row : Nat}
    (hrow : row < ta.lines.length) (hsel : ta.selectedRow row = true) :
    lineLen (mapSelected ta f) row = (f (ta.lines.getD row [])).length := by
  unfold lineLen mapSelected
  grind

@[grind =] theorem selectedRow_cursor (ta : Textarea) : ta.selectedRow ta.cursor.row = true := by
  unfold Textarea.selectedRow
  grind

@[grind =] theorem selectedRow_mark (hsel : ta.hasSelection = true) :
    ta.selectedRow ta.mark.row = true := by
  unfold Textarea.selectedRow
  grind

theorem kept_indent (h : ta.Inv) : Kept (textareaIndent ta) := by
  have hrows := rowsThere_of_valid h.valid
  unfold textareaIndent
  grind [lineLen]

theorem dedentBy_le (line : List UInt8) : dedentBy line ≤ textareaTabWidth := by
  refine Nat.le_trans ( takeWhile_prefix _).length_le ?_
  rw [length_take]
  exact Nat.min_le_left _ _

theorem kept_dedent (h : ta.Inv) (hok : KeyOk ta clip .dedent) : Kept (textareaDedent ta) := by
  have hrows := rowsThere_of_valid h.valid
  unfold textareaDedent
  unfold KeyOk at hok
  grind [lineLen, dedentBy_le]

theorem kept_deleteLine (h : ta.Inv) (hok : KeyOk ta clip .deleteLine) :
    Kept (textareaDeleteLine ta) := by
  unfold textareaDeleteLine
  unfold KeyOk at hok
  grind

theorem kept_duplicateLine (h : ta.Inv) (hok : KeyOk ta clip .duplicateLine) :
    Kept (textareaDuplicateLine ta) := by
  unfold textareaDuplicateLine
  unfold KeyOk at hok
  grind

theorem kept_cut (h : ta.Inv) : Kept (textareaCut ta) := by
  have hrows := rowsThere_of_valid h.valid
  have hdrop := fun hsel => (inv_dropSelection h hsel).scroll
  unfold textareaCut
  grind

/-! ### Insertions and deletions anywhere -/

/-- The lines after an insertion, and which positions are still there. -/
theorem inserted_spec (h : ta.Valid) (row col : Int) (text : List UInt8)
    (hroom : Room ta.lines.length (clampPos ta.lines row col).row text) :
    ∃ lines vscroll,
      textareaInsertAt ta row col text = some { ta with lines := lines, vscroll := vscroll } ∧
      1 ≤ lines.length ∧ lines.length ≤ textareaMaxLines ∧
      ∀ other, ValidPos ta.lines other →
        (newline ∈ text → NotBehind other (clampPos ta.lines row col)) → ValidPos lines other := by
  have hpos := validPos_clampPos h.some row col
  have hclamp : textareaInsertAt ta row col text =
      insertAtPos ta (clampPos ta.lines row col) text := by
    unfold insertAtPos textareaInsertAt
    simp only
    rw [clampPos_of_valid hpos]
  obtain ⟨p, y, ys, t, vscroll, hposOf, hlines, heq, hbound, ht⟩ :=
    insertAtPos_spec h hpos text hroom
  refine ⟨_, vscroll, hclamp.trans heq, by simp, hbound, ?_⟩
  intro other hother hbehind
  rw [hlines] at hother
  by_cases hmem : newline ∈ text
  · have hbefore := hbehind hmem
    rw [← hposOf] at hbefore
    obtain ⟨y', ys', hshape⟩ := place_extend newline p t y ys
    rw [hshape]
    exact validPos_of_notBehind hother hbefore
  · -- without a newline every line is at least as long as it was
    have hcount : text.count newline = 0 := count_eq_zero.2 hmem
    rw [ht (by have := h.bound; omega), extend_of_not_mem hmem]
    grind

/-- The lines after a deletion, and which positions are still there. -/
theorem deleted_spec (h : ta.Valid) (a b c d : Int) :
    ∃ lines vscroll, textareaDeleteRange ta a b c d =
      { ta with lines := lines, vscroll := vscroll } ∧
      1 ≤ lines.length ∧ lines.length ≤ textareaMaxLines ∧
      ∀ other, ValidPos ta.lines other →
        (posLt (clampPos ta.lines a b) (clampPos ta.lines c d) = true →
          NotBehind other (clampPos ta.lines a b)) → ValidPos lines other := by
  obtain ⟨vscroll, heq⟩ := deleteRange_eq ta a b c d
  refine ⟨_, vscroll, heq, ?_⟩
  have hstart := validPos_clampPos h.some a b
  have hfinish := validPos_clampPos h.some c d
  by_cases hlt : posLt (clampPos ta.lines a b) (clampPos ta.lines c d) = true
  · have hle : posLt (clampPos ta.lines c d) (clampPos ta.lines a b) = false := by grind
    have hlen := length_joinLines hfinish hle
    rw [removed_eq_join hstart hle]
    refine ⟨by grind, by grind, ?_⟩
    intro other hother hbehind
    obtain ⟨p, y, ys, y', ys', hpos, hlines, hjoin⟩ := joinLines_place hstart hfinish
    have hbefore := hbehind hlt
    rw [hlines] at hother
    rw [← hpos] at hbefore
    rw [hjoin]
    exact validPos_of_notBehind hother hbefore
  · unfold removed
    grind

/-- The lines are replaced and the cursor is clamped to them. -/
theorem inv_replaced {vscroll : Scrollbar} {undoPos : Nat} (hsome : 1 ≤ lines.length)
    (hbound : lines.length ≤ textareaMaxLines)
    (hmark : ta.hasSelection = true → ValidPos lines ta.mark) (pos : TAPos)
    (hpos : undoPos ≤ ta.undoStack.length) :
    (setCursorClamped { ta with lines := lines, vscroll := vscroll, undoPos := undoPos } pos).Inv :=
  ⟨⟨hsome, hbound, validPos_clampPos hsome _ _, hmark⟩, hpos⟩

theorem kept_paste (h : ta.Inv) (hok : KeyOk ta clip .paste) : Kept (textareaPaste ta clip) := by
  match clip with
  | none => exact kept_some.2 h
  | some text =>
    obtain ⟨hvalid, hsel, hlines, hcursor, -, hstack, hpos⟩ := edited_spec h.valid
    have hedited : ta.edited.Inv := ⟨hvalid, by rw [hstack, hpos]; exact h.records⟩
    have hroom := hok text rfl
    rw [← hlines, ← hcursor, ← clampPos_of_valid hvalid.cursor] at hroom
    obtain ⟨lines, vscroll, heq, hsome, hbound, -⟩ := inserted_spec hvalid _ _ text hroom
    show Kept ((insertAtPos ta.edited ta.edited.cursor text).map _)
    unfold insertAtPos
    rw [heq]
    exact ⟨_, rfl, inv_replaced hsome hbound (by grind) _ hedited.records⟩

theorem kept_undo (h : ta.Inv) (hok : KeyOk ta clip .undo) : Kept (textareaUndo ta) := by
  unfold textareaUndo
  by_cases hnone : ta.undoPos = 0
  · rw [if_pos hnone]
    exact kept_some.2 h
  have hrecords := h.records
  have hpos : ta.undoPos - 1 ≤ ta.undoStack.length := by omega
  have hget : ta.undoStack[ta.undoPos - 1]? = some (ta.undoStack.get ⟨ta.undoPos - 1, by omega⟩) :=
    getElem?_eq_getElem _
  obtain ⟨hmark, hroom⟩ := hok.resolve_left hnone _ hget
  rw [if_neg hnone, hget]
  generalize ta.undoStack.get ⟨ta.undoPos - 1, by omega⟩ = u at hmark hroom
  have hback : ({ ta with undoPos := ta.undoPos - 1 } : Textarea).Valid := { h.valid with }
  match htype : u.type with
  | .insert =>
    obtain ⟨lines, vscroll, heq, hsome, hbound, hstay⟩ :=
      deleted_spec hback u.start.row u.start.col u.finish.row u.finish.col
    simp only [htype, bind_eq_bind, bind_some]
    unfold deleteBetween
    rw [heq]
    exact ⟨_, rfl, inv_replaced hsome hbound
      (fun hsel => hstay _ (h.valid.mark hsel) fun _ => hmark hsel) _ hpos⟩
  | .delete =>
    obtain ⟨lines, vscroll, heq, hsome, hbound, hstay⟩ :=
      inserted_spec hback u.start.row u.start.col u.text (hroom htype)
    simp only [htype, bind_eq_bind]
    unfold insertAtPos
    rw [heq]
    exact ⟨_, rfl, inv_replaced hsome hbound
      (fun hsel => hstay _ (h.valid.mark hsel) fun _ => hmark hsel) _ hpos⟩

theorem kept_redo (h : ta.Inv) (hok : KeyOk ta clip .redo) : Kept (textareaRedo ta) := by
  unfold textareaRedo
  match hget : ta.undoStack[ta.undoPos]? with
  | none => exact kept_some.2 h
  | some u =>
    obtain ⟨hmark, hroom⟩ := hok u hget
    have hpos : ta.undoPos + 1 ≤ ta.undoStack.length := (List.getElem?_eq_some_iff.1 hget).1
    match htype : u.type with
    | .insert =>
      obtain ⟨lines, vscroll, heq, hsome, hbound, hstay⟩ :=
        inserted_spec h.valid u.start.row u.start.col u.text (hroom htype)
      simp only [htype, bind_eq_bind]
      unfold insertAtPos
      rw [heq]
      exact ⟨_, rfl, inv_replaced hsome hbound
        (fun hsel => hstay _ (h.valid.mark hsel) fun _ => hmark hsel) _ hpos⟩
    | .delete =>
      obtain ⟨lines, vscroll, heq, hsome, hbound, hstay⟩ :=
        deleted_spec h.valid u.start.row u.start.col u.finish.row u.finish.col
      simp only [htype, bind_eq_bind, bind_some]
      unfold deleteBetween
      rw [heq]
      exact ⟨_, rfl, inv_replaced hsome hbound
        (fun hsel => hstay _ (h.valid.mark hsel) fun _ => hmark hsel) _ hpos⟩

/-! ### Movements -/

/-- Where the cursor goes is up to the key; the selection ends at it. -/
theorem Textarea.Inv.moved (h : ta.Inv) (shift sel : Bool) (hpos : ValidPos ta.lines pos) :
    (textareaScrollToCursor
      (if shift then { beginMove ta shift with cursor := pos, hasSelection := sel }
       else { beginMove ta shift with cursor := pos })).Inv := by
  unfold beginMove
  refine Textarea.Inv.scroll ?_
  grind

theorem beginMove_same (ta : Textarea) (shift : Bool) :
    (beginMove ta shift).lines = ta.lines ∧ (beginMove ta shift).cursor = ta.cursor := by
  unfold beginMove
  grind

theorem validPos_moveCol {row : Nat} (hrow : row < lines.length) (col : Int) :
    ValidPos lines (moveCol lines row col) := by
  unfold moveCol
  grind

section

variable (h : ta.Inv)
include h

theorem inv_moveCursor (dr dc : Int) (shift : Bool) : (moveCursor ta dr dc shift).Inv := by
  obtain ⟨hlines, hcursor⟩ := beginMove_same ta shift
  have hsome := h.valid.some
  have hrow : min ((ta.cursor.row : Int) + dr).toNat (ta.lines.length - 1) < ta.lines.length := by
    omega
  refine h.moved shift _ ?_
  have hcol := validPos_moveCol hrow (ta.cursor.col + dc)
  grind

theorem inv_moveHome (shift : Bool) : (moveHome ta shift).Inv := by
  obtain ⟨-, hcursor⟩ := beginMove_same ta shift
  refine h.moved shift _ ?_
  grind

theorem inv_moveEnd (shift : Bool) : (moveEnd ta shift).Inv := by
  obtain ⟨hlines, hcursor⟩ := beginMove_same ta shift
  refine h.moved shift true ?_
  grind

theorem inv_selectAll : (textareaSelectAll ta).Inv := by
  unfold textareaSelectAll
  grind

/-- Every key keeps the invariant. -/
theorem kept_key (clip : Option (List UInt8)) (action : KeyAction)
    (hok : KeyOk ta clip action) : Kept (textareaKey ta clip action) := by
  cases action with
  | selectAll => exact kept_some.2 (inv_selectAll h)
  | undo => exact kept_undo h hok
  | redo => exact kept_redo h hok
  | copy | nothing => exact kept_some.2 h
  | cut => exact kept_cut h
  | paste => exact kept_paste h hok
  | deleteLine => exact kept_deleteLine h hok
  | duplicateLine => exact kept_duplicateLine h hok
  | move dr dc shift => exact kept_some.2 (inv_moveCursor h dr dc shift)
  | page down shift => exact kept_some.2 (inv_moveCursor h _ 0 shift)
  | home shift => exact kept_some.2 (inv_moveHome h shift)
  | toEnd shift => exact kept_some.2 (inv_moveEnd h shift)
  | backspace => exact kept_backspace h
  | deleteFwd => exact kept_deleteFwd h
  | newline => exact kept_newline h hok
  | indent => exact kept_indent h
  | dedent => exact kept_dedent h hok
  | insert cp => exact kept_insertChar h cp

/-! ### Other operations -/

theorem inv_vscroll (ev : Event) : (vscrollEvent ta ev).Inv := by
  unfold vscrollEvent
  grind

theorem inv_hscroll (ev : Event) : (hscrollEvent ta ev).Inv := by
  unfold hscrollEvent
  grind

theorem inv_click (x y : Int) (mods : Nat) : (textareaClick ta x y mods).Inv := by
  have hpos : ValidPos ta.lines (pointPos ta x y) := validPos_clampPos h.valid.some _ _
  refine Textarea.Inv.scroll ?_
  grind

theorem inv_setText (text : List UInt8) : (textareaSetText ta text).Inv := by
  unfold textareaSetText textareaClear syncRange
  cases text with
  | nil => grind
  | cons c text =>
    have hne : textRows (c :: text) ≠ [] := by
      unfold textRows
      grind
    have hlen : 0 < (textRows (c :: text)).length := length_pos_of_ne_nil hne
    grind

theorem kept_event (ev : Event) (hok : StepOk ta (.event ev clip)) :
    Kept (textareaOnEvent ta clip ev) := by
  cases ev with
  | mouseDown x y mods => grind [textareaOnEvent, inv_vscroll, inv_hscroll, inv_click]
  | keyDown key cp mods =>
    unfold textareaOnEvent
    split_ifs with hfocus
    · exact kept_key h clip _ (hok hfocus)
    · exact kept_some.2 h
  | _ => grind [textareaOnEvent, textareaWheel, inv_vscroll, inv_hscroll]

/-- Every operation keeps the invariant. -/
theorem kept_step (op : TAOp) (hok : StepOk ta op) : Kept (textareaStep ta op) := by
  cases op with
  | insertAt row col text =>
    obtain ⟨hbehind, hroom⟩ := hok
    obtain ⟨lines, vscroll, heq, hsome, hbound, hstay⟩ := inserted_spec h.valid row col text hroom
    refine ⟨_, heq, ⟨hsome, hbound, ?_, ?_⟩, h.records⟩
    · exact hstay _ h.valid.cursor fun hmem => (hbehind hmem).1
    · intro hsel
      exact hstay _ (h.valid.mark hsel) fun hmem => (hbehind hmem).2 hsel
  | deleteRange a b c d =>
    obtain ⟨lines, vscroll, heq, hsome, hbound, hstay⟩ := deleted_spec h.valid a b c d
    refine ⟨_, congrArg some heq, ⟨hsome, hbound, ?_, ?_⟩, h.records⟩
    · exact hstay _ h.valid.cursor fun hlt => (hok hlt).1
    · intro hsel
      exact hstay _ (h.valid.mark hsel) fun hlt => (hok hlt).2 hsel
  | setText text => exact kept_some.2 (inv_setText h text)
  | clear => exact kept_some.2 (inv_setText h [])
  | key action clip => exact kept_key h clip action hok
  | event ev clip => exact kept_event h ev hok
  | vbar ev => exact kept_some.2 (inv_vscroll h ev)
  | hbar ev => exact kept_some.2 (inv_hscroll h ev)
  | _ => grind [textareaStep, textareaSetCursor, textareaSelectRange, textareaClearSelection,
      Textarea.Inv.scroll]

end

/-! ### Runs -/

theorem inv_new (x y w h : Int) : (textareaNew x y w h).Inv := by
  have hmax : 1 < textareaMaxLines := by decide
  unfold textareaNew
  grind

/-- **A text area all of whose operations meet the condition has one to 4096 lines, and its cursor
and the mark of an active selection are positions in them, in every state it goes through.** -/
theorem positions_valid (x y w h : Int) (ops : List TAOp)
    (hok : Along textareaStep StepOk (textareaNew x y w h) ops) :
    (run textareaStep (textareaNew x y w h) ops).isSome ∧
      Throughout textareaStep Textarea.Valid (textareaNew x y w h) ops := by
  obtain ⟨ta, hrun, -⟩ := run_keeps (fun _ op h hok => kept_step h op hok) (inv_new x y w h) hok
  refine ⟨by rw [hrun]; rfl, ?_⟩
  refine Throughout.mono (fun _ (h : Textarea.Inv _) => h.valid)
    (along_throughout ?_ (inv_new x y w h) hok)
  intro ta op ta' hinv hstep hnext
  obtain ⟨_, hres, hkept⟩ := kept_step hinv op hstep
  rw [hres] at hnext
  cases hnext
  exact hkept

/-- A text of two lines is selected and the second line broken. -/
theorem positions_valid_newline :
    Along textareaStep StepOk (textareaNew 0 0 200 200)
        [.setText [97, 10, 98, 99], .selectRange 0 0 1 1, .key .newline none] ∧
      ((run textareaStep (textareaNew 0 0 200 200)
          [.setText [97, 10, 98, 99], .selectRange 0 0 1 1, .key .newline none]).isSome ∧
        Throughout textareaStep Textarea.Valid (textareaNew 0 0 200 200)
          [.setText [97, 10, 98, 99], .selectRange 0 0 1 1, .key .newline none]) := by
  have hok : Along textareaStep StepOk (textareaNew 0 0 200 200)
      [.setText [97, 10, 98, 99], .selectRange 0 0 1 1, .key .newline none] := by
    refine ⟨trivial, fun _ hfirst => ⟨trivial, fun _ hsecond => ⟨Or.inr ?_, fun _ _ => trivial⟩⟩⟩
    obtain rfl := some.inj hfirst
    obtain rfl := some.inj hsecond
    decide +kernel
  exact ⟨hok, positions_valid 0 0 200 200 _ hok⟩

/-- Both lines of a text are selected from the end and the first is deleted: the mark is in a row
that is not there any more. -/
theorem deleteLine_leaves_mark :
    (run textareaStep (textareaNew 0 0 200 200)
        [.setText [97, 10, 98], .setFocused true, .selectRange 1 1 0 0,
          .event (.keyDown 100 0 2) none]).map
      (fun ta => (ta.lines, ta.cursor, ta.mark, ta.hasSelection)) =
        some ([[98]], ⟨0, 0⟩, ⟨1, 1⟩, true) ∧ ¬ ValidPos [[98]] ⟨1, 1⟩ := by
  decide +kernel

end Nv0ken.Widgets
