/-
The editing steps of a text area.

An edit drops the selection, if there is one, and then changes the lines at the cursor, which
is a place in them.  For each edit there is one lemma that says what comes out of it, in terms
of places and of the text put in or taken out; what holds of the result is read off it
elsewhere.
-/
import Nv0ken.Proofs.Widgets.Edits

namespace Nv0ken.Widgets

open Nv0ken.Lines List Option

variable {ta ta' : Textarea} {lines : Lines} {p : Lines × List UInt8} {y t : List UInt8}
  {ys : Lines} {pos start finish : TAPos} {row : Nat}

/-- The number of lines is in bounds, the cursor is a position that is there, and so is the mark
of an active selection. -/
structure Textarea.Valid (ta : Textarea) : Prop where
  some : 1 ≤ ta.lines.length
  bound : ta.lines.length ≤ textareaMaxLines
  cursor : ValidPos ta.lines ta.cursor
  mark : ta.hasSelection = true → ValidPos ta.lines ta.mark

@[grind =] theorem valid_iff : ta.Valid ↔ 1 ≤ ta.lines.length ∧ ta.lines.length ≤ textareaMaxLines ∧
    ValidPos ta.lines ta.cursor ∧ (ta.hasSelection = true → ValidPos ta.lines ta.mark) :=
  ⟨fun h => ⟨h.some, h.bound, h.cursor, h.mark⟩, fun h => ⟨h.1, h.2.1, h.2.2.1, h.2.2.2⟩⟩

/-! ### Without the selection -/

/-- How many lines there are without the selection. -/
def Textarea.linesLeft (ta : Textarea) : Nat :=
  if ta.hasSelection then ta.lines.length - (ta.selEnd.row - ta.selStart.row) else ta.lines.length

/-- Where an edit happens: where the selection begins, or at the cursor. -/
def Textarea.editPos (ta : Textarea) : TAPos := if ta.hasSelection then ta.selStart else ta.cursor

/-- The line it happens in, without the selection. -/
def Textarea.editLine (ta : Textarea) : List UInt8 :=
  if ta.hasSelection then
    (ta.lines.getD ta.selStart.row []).take ta.selStart.col ++
      (ta.lines.getD ta.selEnd.row []).drop ta.selEnd.col
  else ta.lines.getD ta.cursor.row []

/-- The lines of a text fit behind those there are, or it is put into the last line. -/
def Room (count row : Nat) (text : List UInt8) : Prop :=
  count + text.count newline ≤ textareaMaxLines ∨ row + 1 = count

/-- A position is not behind another. -/
def NotBehind (pos other : TAPos) : Prop := posLt other pos = false

/-! ### Pieces of operations -/

theorem deleteRange_eq (ta : Textarea) (a b c d : Int) :
    ∃ vscroll, textareaDeleteRange ta a b c d =
      { ta with lines := removed ta.lines (clampPos ta.lines a b) (clampPos ta.lines c d),
                vscroll := vscroll } := by
  unfold textareaDeleteRange removed
  simp only
  split_ifs with hlt hrow
  · exact ⟨ta.vscroll, rfl⟩
  · exact ⟨ta.vscroll, rfl⟩
  · exact ⟨_, rfl⟩

theorem insertAt_eq (ta : Textarea) (a b : Int) (text : List UInt8) :
    ∃ vscroll : Lines → Scrollbar, textareaInsertAt ta a b text =
      (insertLoop text ta.lines (clampPos ta.lines a b).row (clampPos ta.lines a b).col).map
        fun lines => { ta with lines := lines, vscroll := vscroll lines } := by
  unfold textareaInsertAt
  by_cases htext : text = []
  · refine ⟨fun _ => ta.vscroll, ?_⟩
    rw [htext]
    rfl
  · rw [if_neg htext]
    exact ⟨_, rfl⟩

/-- What stands before a place stays valid whatever comes behind it. -/
theorem validPos_of_notBehind {y' : List UInt8} {ys' : Lines} (h : ValidPos (place p y ys) pos)
    (hle : NotBehind pos (posOf p)) : ValidPos (place p y' ys') pos := by
  unfold NotBehind at hle
  grind

/-- The lines when a range is deleted, as a place at its beginning. -/
theorem joinLines_place (hstart : ValidPos lines start) (hfinish : ValidPos lines finish) :
    ∃ p y ys y' ys', posOf p = start ∧ lines = place p y ys ∧
      joinLines lines start finish = place p y' ys' := by
  obtain ⟨p, y, ys, rfl, rfl⟩ := exists_posOf hstart
  obtain ⟨q, y', ys', hplace, rfl⟩ := exists_posOf hfinish
  exact ⟨p, y, ys, y', ys', rfl, rfl, joinLines_places hplace⟩

theorem getD_joinLines (h : ValidPos lines start) :
    (joinLines lines start finish).getD start.row [] =
      (lines.getD start.row []).take start.col ++ (lines.getD finish.row []).drop finish.col := by
  unfold joinLines
  grind

theorem length_joinLines (hfinish : ValidPos lines finish) (hle : posLt finish start = false) :
    (joinLines lines start finish).length = lines.length - (finish.row - start.row) := by
  unfold joinLines
  grind

/-! ### The selection -/

/-- The ends of an active selection are there, in order. -/
theorem Textarea.Valid.selection (h : ta.Valid) (hsel : ta.hasSelection = true) :
    ValidPos ta.lines ta.selStart ∧ ValidPos ta.lines ta.selEnd ∧
      posLt ta.selEnd ta.selStart = false := by
  unfold Textarea.selStart Textarea.selEnd posMin posMax
  grind

/-- The text area an edit goes on with once the selection is gone. -/
def Textarea.edited (ta : Textarea) : Textarea := if ta.hasSelection then dropSelection ta else ta

theorem dropSelection_eq (h : ta.Valid) (hsel : ta.hasSelection = true) :
    ∃ vscroll, dropSelection ta = { ta with
      lines := joinLines ta.lines ta.selStart ta.selEnd, vscroll := vscroll,
      cursor := ta.selStart, hasSelection := false } := by
  obtain ⟨hstart, hend, hle⟩ := h.selection hsel
  obtain ⟨vscroll, heq⟩ :=
    deleteRange_eq ta ta.selStart.row ta.selStart.col ta.selEnd.row ta.selEnd.col
  rw [clampPos_of_valid hstart, clampPos_of_valid hend, removed_eq_join hstart hle] at heq
  refine ⟨vscroll, ?_⟩
  unfold dropSelection deleteBetween
  rw [heq]

theorem valid_dropSelection (h : ta.Valid) (hsel : ta.hasSelection = true) :
    (dropSelection ta).Valid := by
  obtain ⟨hstart, hend, hle⟩ := h.selection hsel
  obtain ⟨vscroll, heq⟩ := dropSelection_eq h hsel
  obtain ⟨p, y, ys, y', ys', hpos, -, hjoin⟩ := joinLines_place hstart hend
  have hlen := length_joinLines hend hle
  grind

theorem edited_spec (h : ta.Valid) :
    ta.edited.Valid ∧ ta.edited.hasSelection = false ∧ ta.edited.lines.length = ta.linesLeft ∧
      ta.edited.cursor = ta.editPos ∧ ta.edited.lines.getD ta.editPos.row [] = ta.editLine ∧
      ta.edited.undoStack = ta.undoStack ∧ ta.edited.undoPos = ta.undoPos := by
  unfold Textarea.edited Textarea.linesLeft Textarea.editPos Textarea.editLine
  by_cases hsel : ta.hasSelection = true
  · obtain ⟨hstart, hend, hle⟩ := h.selection hsel
    have hvalid := valid_dropSelection h hsel
    obtain ⟨vscroll, heq⟩ := dropSelection_eq h hsel
    rw [heq] at hvalid
    simp only [hsel, if_true]
    rw [heq]
    exact ⟨hvalid, rfl, length_joinLines hend hle, rfl, getD_joinLines hstart, rfl, rfl⟩
  · simp only [hsel]
    exact ⟨h, by simpa using hsel, rfl, rfl, rfl, rfl, rfl⟩

/-! ### Insertions -/

/-- An insertion that has a result has put in a part of the text, and the lines are in bounds. -/
theorem insertLoop_shape (text : List UInt8)
    (h : insertLoop text (place p y ys) p.1.length p.2.length = some lines)
    (hbound : (place p y ys).length ≤ textareaMaxLines) :
    (∃ t, lines = place (extend newline p t) y ys) ∧ lines.length ≤ textareaMaxLines := by
  induction text generalizing p with
  | nil =>
    obtain rfl := some.inj h
    exact ⟨⟨[], rfl⟩, hbound⟩
  | cons c text ih =>
    rw [insertLoop] at h
    have hnext (p' : Lines × List UInt8) (hstep : Nv0ken.Lines.step newline p c = p')
        (hwas : insertLoop text (place p' y ys) p'.1.length p'.2.length = some lines)
        (hlen : (place p' y ys).length ≤ textareaMaxLines) :
        (∃ t, lines = place (extend newline p t) y ys) ∧ lines.length ≤ textareaMaxLines := by
      obtain ⟨⟨t, ht⟩, hle⟩ := ih hwas hlen
      exact ⟨⟨c :: t, by rw [extend_cons, hstep, ht]⟩, hle⟩
    by_cases hc : c = newline
    · rw [if_pos hc] at h
      by_cases hlast : p.1.length + 1 ≥ textareaMaxLines
      · rw [if_pos hlast] at h
        obtain rfl := some.inj h
        exact ⟨⟨[], rfl⟩, hbound⟩
      rw [if_neg hlast] at h
      by_cases hfull : (place p y ys).length ≥ textareaMaxLines
      · rw [if_pos hfull] at h
        simp at h
      rw [if_neg hfull, splitLine_place] at h
      refine hnext (p.1 ++ [p.2], []) ?_ ?_ ?_
      · rw [Nv0ken.Lines.step, if_pos hc]
      · rw [length_append]
        exact h
      · simp at hfull ⊢
        omega
    · rw [if_neg hc, lineInsert_place] at h
      refine hnext (p.1, p.2 ++ [c]) ?_ ?_ ?_
      · rw [Nv0ken.Lines.step, if_neg hc]
      · rw [length_append]
        exact h
      · simpa using hbound

/-- With room for its lines, or in the last line, an insertion has a result. -/
theorem insertLoop_isSome (text : List UInt8) (hrow : p.1.length < (place p y ys).length)
    (hroom : Room (place p y ys).length p.1.length text) :
    (insertLoop text (place p y ys) p.1.length p.2.length).isSome := by
  rcases hroom with hroom | hlast
  · rw [insertLoop_place text hroom]
    rfl
  · have hys : ys = [] := by
      rw [length_place] at hlast
      exact length_eq_zero_iff.mp (by omega)
    subst hys
    clear hlast hrow
    induction text generalizing p with
    | nil => rfl
    | cons c text ih =>
      rw [insertLoop]
      by_cases hc : c = newline
      · rw [if_pos hc]
        by_cases hend : p.1.length + 1 ≥ textareaMaxLines
        · rw [if_pos hend]
          rfl
        · rw [if_neg hend, if_neg (by simpa using hend), splitLine_place]
          have hnext := @ih (p.1 ++ [p.2], [])
          rw [length_append] at hnext
          exact hnext
      · rw [if_neg hc, lineInsert_place]
        have hnext := @ih (p.1, p.2 ++ [c])
        rw [length_append] at hnext
        exact hnext

/-- An insertion at a valid position. -/
theorem insertAtPos_spec (h : ta.Valid) (hpos : ValidPos ta.lines pos) (text : List UInt8)
    (hroom : Room ta.lines.length pos.row text) :
    ∃ p y ys t vscroll, posOf p = pos ∧ ta.lines = place p y ys ∧
      insertAtPos ta pos text =
        some { ta with lines := place (extend newline p t) y ys, vscroll := vscroll } ∧
      (place (extend newline p t) y ys).length ≤ textareaMaxLines ∧
      (ta.lines.length + text.count newline ≤ textareaMaxLines → t = text) := by
  obtain ⟨p, y, ys, hlines, hp⟩ := exists_posOf hpos
  obtain ⟨vscroll, hinsert⟩ := insertAt_eq ta pos.row pos.col text
  rw [clampPos_of_valid hpos] at hinsert
  have hrow : pos.row = p.1.length := by rw [← hp]; rfl
  have hcol : pos.col = p.2.length := by rw [← hp]; rfl
  have hbound := h.bound
  rw [hlines, hrow] at hroom
  rw [hlines] at hbound
  have hsome := insertLoop_isSome text (by rw [length_place]; omega) hroom
  obtain ⟨l, hl⟩ := isSome_iff_exists.mp hsome
  have hloop : insertLoop text ta.lines pos.row pos.col = some l := by rw [hlines, hrow, hcol, hl]
  rw [hloop] at hinsert
  by_cases hfits : (place p y ys).length + text.count newline ≤ textareaMaxLines
  · have hexact := insertLoop_place text hfits
    obtain rfl := some.inj (hl.symm.trans hexact)
    obtain ⟨-, hle⟩ := insertLoop_shape text hl hbound
    exact ⟨p, y, ys, text, vscroll _, hp, hlines, hinsert, hle, fun _ => rfl⟩
  · obtain ⟨⟨t, rfl⟩, hle⟩ := insertLoop_shape text hl hbound
    exact ⟨p, y, ys, t, vscroll _, hp, hlines, hinsert, hle, fun hno => absurd (hlines ▸ hno) hfits⟩

/-! ### Edits -/

theorem rowsThere_of_valid (h : ta.Valid) : ta.rowsThere = true := by
  unfold Textarea.rowsThere
  grind

/-- An edit with a record: the lines change between two places, and the cursor is at the second. -/
structure Pushed (ta ta' : Textarea) (u : TAUndo) (src dst : Lines × List UInt8) : Prop where
  lines : ∃ y ys, ta.lines = place src y ys ∧ ta'.lines = place dst y ys
  cursor : ta'.cursor = posOf dst
  sel : ta'.hasSelection = false
  stack : ta'.undoStack = (undoPush ta u.type u.start u.finish u.text).undoStack
  pos : ta'.undoPos = (undoPush ta u.type u.start u.finish u.text).undoPos

/-- The text area that a recorded edit begins with. -/
def Textarea.recorded (ta : Textarea) : Textarea :=
  if ta.hasSelection then dropSelectionRecorded ta else ta

theorem recorded_spec (h : ta.Valid) : ta.recorded.Valid ∧ ta.recorded.hasSelection = false := by
  unfold Textarea.recorded
  by_cases hsel : ta.hasSelection = true
  · have hpushed : (undoPush ta .delete ta.selStart ta.selEnd
        (cString (textareaSelectedText ta))).Valid := ⟨h.some, h.bound, h.cursor, h.mark⟩
    obtain ⟨vscroll, heq⟩ := dropSelection_eq hpushed hsel
    rw [if_pos hsel]
    unfold dropSelectionRecorded
    refine ⟨valid_dropSelection hpushed hsel, ?_⟩
    rw [heq]
  · rw [if_neg hsel]
    exact ⟨h, by simpa using hsel⟩

theorem insertChar_pushed (h : ta.Valid) (hwrite : ta.readonly = false) {cp : Nat} (hcp : cp ≠ 13) :
    ∃ ta' p, textareaInsertChar ta cp = some ta' ∧ Pushed ta.recorded ta'
      ⟨.insert, posOf p, posOf (p.1, p.2 ++ [charOf cp]), [charOf cp]⟩ p
        (p.1, p.2 ++ [charOf cp]) := by
  obtain ⟨hvalid, hsel⟩ := recorded_spec h
  obtain ⟨p, y, ys, hlines, hpos⟩ := exists_posOf hvalid.cursor
  have hnext : (⟨ta.recorded.cursor.row, ta.recorded.cursor.col + 1⟩ : TAPos) =
      posOf (p.1, p.2 ++ [charOf cp]) := by
    rw [← hpos]
    simp [posOf]
  have hline : ta.recorded.lines.modify ta.recorded.cursor.row
      (fun line => lineInsert line ta.recorded.cursor.col [charOf cp]) =
        place (p.1, p.2 ++ [charOf cp]) y ys := by
    rw [hlines, ← hpos]
    exact lineInsert_place (charOf cp)
  unfold textareaInsertChar
  rw [if_neg (by simp [hwrite, hcp]), rowsThere_of_valid h]
  refine ⟨_, p, rfl, ⟨y, ys, hlines, hline⟩, hnext, hsel, ?_, ?_⟩
  all_goals
    simp only [← hnext, hpos]
    rfl

/-- The text that a newline puts in. -/
def newlineText (ta : Textarea) : List UInt8 :=
  newline :: List.replicate (newIndent ta.editLine ta.editPos.col) space

theorem newline_not_mem_spaces (n : Nat) : newline ∉ List.replicate n space := by
  intro h
  exact absurd (eq_of_mem_replicate h) (by decide)

theorem newline_pushed (h : ta.Valid) (hwrite : ta.readonly = false)
    (hroom : ta.linesLeft < textareaMaxLines)
    (hfits : 1 + newIndent ta.editLine ta.editPos.col ≤ textareaLineCap) :
    ∃ ta' p, textareaNewline ta = some ta' ∧ ta'.lines.length ≤ textareaMaxLines ∧
      Pushed ta.edited ta' ⟨.insert, posOf p, posOf (extend newline p (newlineText ta)),
        newlineText ta⟩
        p (extend newline p (newlineText ta)) := by
  obtain ⟨hvalid, hsel, hlen, hcursor, hline, -⟩ := edited_spec h
  have hcount : ta.edited.lines.length + (newlineText ta).count newline ≤ textareaMaxLines := by
    unfold newlineText
    rw [count_cons, count_eq_zero.mpr (newline_not_mem_spaces _)]
    simp
    omega
  have hpush : (undoPush ta.edited .insert ta.edited.cursor
      ⟨ta.edited.cursor.row + 1, newIndent ta.editLine ta.editPos.col⟩ (newlineText ta)).Valid :=
    { hvalid with }
  obtain ⟨p, y, ys, t, vscroll, hpos, hlines, hinsert, hbound, ht⟩ :=
    insertAtPos_spec hpush hvalid.cursor (newlineText ta) (Or.inl hcount)
  obtain rfl := ht hcount
  have hafter : posOf (extend newline p (newlineText ta)) =
      ⟨ta.edited.cursor.row + 1, newIndent ta.editLine ta.editPos.col⟩ := by
    unfold newlineText
    rw [extend_cons, Nv0ken.Lines.step, extend_of_not_mem (newline_not_mem_spaces _), ← hpos]
    simp [posOf]
  have hindent : newIndent (ta.edited.lines.getD ta.edited.cursor.row []) ta.edited.cursor.col =
      newIndent ta.editLine ta.editPos.col := by rw [hcursor, hline]
  refine ⟨textareaScrollToCursor { undoPush ta.edited .insert (posOf p)
      (posOf (extend newline p (newlineText ta))) (newlineText ta) with
        lines := place (extend newline p (newlineText ta)) y ys
        vscroll := vscroll
        cursor := posOf (extend newline p (newlineText ta)) },
    p, ?_, hbound, ⟨y, ys, hlines, rfl⟩, rfl, hsel, rfl, rfl⟩
  unfold textareaNewline
  have hfold : (if ta.hasSelection then dropSelection ta else ta) = ta.edited := rfl
  simp only [hwrite, Bool.false_eq_true, if_false, hfold, hindent]
  rw [if_neg (by have := hvalid.cursor.row; omega), hafter, hpos]
  exact congrArg (Option.map _) hinsert

theorem deleteBetween_eq (hstart : ValidPos ta.lines start) (hfinish : ValidPos ta.lines finish) :
    ∃ vscroll, deleteBetween ta start finish =
      { ta with lines := removed ta.lines start finish, vscroll := vscroll } := by
  obtain ⟨vscroll, heq⟩ := deleteRange_eq ta start.row start.col finish.row finish.col
  rw [clampPos_of_valid hstart, clampPos_of_valid hfinish] at heq
  exact ⟨vscroll, heq⟩

/-- The end of a line and the beginning of the next, with the newline between them. -/
theorem lineEnd_place (hrow : row + 1 < lines.length) :
    ∃ p y ys, lines = place (extend newline p [newline]) y ys ∧
      posOf p = ⟨row, lineLen lines row⟩ ∧ posOf (extend newline p [newline]) = ⟨row + 1, 0⟩ := by
  refine ⟨(lines.take row, lines.getD row []), lines.getD (row + 1) [], lines.drop (row + 2), ?_,
    ?_, ?_⟩
  · rw [extend_sep]
    unfold place
    rw [getD_eq_getElem _ _ (by omega), getD_eq_getElem _ _ hrow]
    simp
  · have : row ≤ lines.length := by omega
    simp [posOf, lineLen, Nat.min_eq_left this]
  · have : row ≤ lines.length := by omega
    rw [extend_sep]
    simp [posOf, Nat.min_eq_left this]

theorem cursor_deleteBetween (ta : Textarea) (start finish : TAPos) :
    (deleteBetween ta start finish).cursor = ta.cursor := by
  obtain ⟨vscroll, heq⟩ := deleteRange_eq ta start.row start.col finish.row finish.col
  unfold deleteBetween
  rw [heq]

/-- The record of a deletion that leads from one place back to another. -/
def DeletesOne (ta ta' : Textarea) : Prop :=
  ∃ p q text, Pushed ta ta' ⟨.delete, posOf p, posOf q, text⟩ q p ∧ p.1.length ≤ q.1.length ∧
    (Unbroken ta.lines → q = extend newline p text)

theorem DeletesOne.scroll (h : DeletesOne ta ta') : DeletesOne ta (textareaScrollToCursor ta') := by
  obtain ⟨p, q, text, ⟨hlines, hcursor, hsel, hstack, hpos⟩, hq⟩ := h
  exact ⟨p, q, text, ⟨hlines, hcursor, hsel, hstack, hpos⟩, hq⟩

/-- One character of a line is deleted. -/
theorem deletesOne_char {col : Nat} (hrow : row < ta.lines.length)
    (hcol : col < lineLen ta.lines row)
    (hlines : ta'.lines = ta.lines.modify row fun line => lineDelete line col 1)
    (hcursor : ta'.cursor = ⟨row, col⟩) (hsel : ta'.hasSelection = false)
    (hrecord : (ta'.undoStack, ta'.undoPos) =
      let pushed :=
        undoPush ta .delete ⟨row, col⟩ ⟨row, col + 1⟩ [(ta.lines.getD row []).getD col 0]
      (pushed.undoStack, pushed.undoPos)) : DeletesOne ta ta' := by
  obtain ⟨p, y, ys, hplace, rfl, rfl⟩ := exists_place hrow (Nat.le_of_lt hcol)
  cases y with
  | nil => grind
  | cons c y =>
    have hchar : (ta.lines.getD p.1.length []).getD p.2.length 0 = c := by
      rw [hplace, getD_place]
      simp
    have hend : (⟨p.1.length, p.2.length + 1⟩ : TAPos) = posOf (p.1, p.2 ++ [c]) := by simp [posOf]
    rw [hchar, hend] at hrecord
    refine ⟨p, (p.1, p.2 ++ [c]), [c], ⟨⟨y, ys, ?_, ?_⟩, hcursor, hsel, ?_, ?_⟩, Nat.le_refl _, ?_⟩
    · rw [hplace]
      simp [place]
    · rw [hlines, hplace, modify_place]
      simp [lineDelete, place]
    · exact congrArg Prod.fst hrecord
    · exact congrArg Prod.snd hrecord
    · intro hclean
      have hc : newline ∉ [c] := by
        have := hclean (p.2 ++ c :: y) (by simp [hplace, place])
        simp_all
      rw [extend_of_not_mem hc]

/-- A line is joined with the next. -/
theorem deletesOne_join (hrow : row + 1 < ta.lines.length) (cursor : TAPos)
    (hsel : ta.hasSelection = false) (hcursor : cursor = ⟨row, lineLen ta.lines row⟩) :
    DeletesOne ta { deleteBetween (undoPush ta .delete ⟨row, lineLen ta.lines row⟩ ⟨row + 1, 0⟩
      [newline]) ⟨row, lineLen ta.lines row⟩ ⟨row + 1, 0⟩ with cursor := cursor } := by
  obtain ⟨p, y, ys, hlines, hstart, hfinish⟩ := lineEnd_place hrow
  have hremoved := @removed_extend p y ys [newline]
  rw [← hlines, hstart, hfinish] at hremoved
  obtain ⟨vscroll, heq⟩ := @deleteBetween_eq (undoPush ta .delete ⟨row, lineLen ta.lines row⟩
    ⟨row + 1, 0⟩ [newline]) ⟨row, lineLen ta.lines row⟩ ⟨row + 1, 0⟩
    ⟨Nat.lt_of_succ_lt hrow, Nat.le_refl _⟩ ⟨hrow, Nat.zero_le _⟩
  rw [heq, hcursor]
  refine ⟨p, extend newline p [newline], [newline], ?_, by simp [extend_sep], fun _ => rfl⟩
  rw [hstart, hfinish]
  exact ⟨⟨y, ys, hlines, hremoved⟩, hstart.symm, hsel, rfl, rfl⟩

section

variable (h : ta.Valid) (hwrite : ta.readonly = false) (hsel : ta.hasSelection = false)
include h hwrite hsel

theorem backspace_deletes :
    textareaBackspace ta = some ta ∨ ∃ ta', textareaBackspace ta = some ta' ∧
      DeletesOne ta ta' := by
  have hrow := h.cursor.row
  have hcol := h.cursor.col
  unfold textareaBackspace
  rw [if_neg (by simp [hwrite]), rowsThere_of_valid h]
  simp only [Bool.not_true, Bool.false_eq_true, if_false, hsel]
  split_ifs with hfirst hinside
  · exact Or.inl rfl
  · refine Or.inr ⟨_, rfl, deletesOne_char hrow (by omega) rfl rfl hsel ?_⟩
    rw [Nat.sub_add_cancel hinside]
    rfl
  · have hzero : ta.cursor.col = 0 := by omega
    obtain ⟨row, hprev⟩ : ∃ row, ta.cursor.row = row + 1 := ⟨ta.cursor.row - 1, by omega⟩
    have hcursor : ta.cursor = ⟨row + 1, 0⟩ := by rw [← hprev, ← hzero]
    have hnext : row + 1 < ta.lines.length := by omega
    refine Or.inr ⟨_, rfl, ?_⟩
    simp only [hcursor, Nat.add_sub_cancel]
    exact (deletesOne_join hnext _ hsel rfl).scroll

theorem deleteFwd_deletes :
    textareaDeleteFwd ta = some ta ∨ ∃ ta', textareaDeleteFwd ta = some ta' ∧
      DeletesOne ta ta' := by
  have hrow := h.cursor.row
  have hcol := h.cursor.col
  unfold textareaDeleteFwd
  rw [if_neg (by simp [hwrite]), rowsThere_of_valid h]
  simp only [Bool.not_true, Bool.false_eq_true, if_false, hsel]
  split_ifs with hlast hinside
  · exact Or.inl rfl
  · exact Or.inr ⟨_, rfl, deletesOne_char hrow hinside rfl rfl hsel rfl⟩
  · obtain ⟨row, hcursor⟩ : ∃ row, ta.cursor = ⟨row, lineLen ta.lines row⟩ := by
      refine ⟨ta.cursor.row, ?_⟩
      rw [← Nat.le_antisymm hcol (Nat.le_of_not_lt hinside)]
    have hnext : row + 1 < ta.lines.length := by
      rw [hcursor] at hlast hrow
      simp only [and_true] at hlast hrow
      omega
    refine Or.inr ⟨_, rfl, ?_⟩
    have hstay := (cursor_deleteBetween (undoPush ta .delete ta.cursor ⟨ta.cursor.row + 1, 0⟩
      [newline]) ta.cursor ⟨ta.cursor.row + 1, 0⟩).trans hcursor
    simp only [hcursor] at hstay ⊢
    exact deletesOne_join hnext _ hsel hstay

end

end Nv0ken.Widgets
