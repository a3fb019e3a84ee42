/-
Cursor and mark.

The cursor and an active mark should stay inside the text.  Every operation sets the
cursor from a position it has just compared with the text, with one exception: a paste
inserts at the cursor, which moves it behind the text, and then moves it by the length of
the text again.  So after a paste the cursor may be behind the end.  The mark is set once and
never moved: a deletion, or an undo or redo that deletes, may take the text away from under it.

Apart from that, and from what makes an edit undefined, cursor and mark stay inside: one
operation keeps `Inside`, and a session is the induction over it.
-/
import Nv0ken.Proofs.TextEditor.Refinement

namespace Nv0ken.TextEditor

open List Option

open Nv0ken.Word (u64 u64Sub u64_of_lt u64Sub_of_le)

/-! ### Operations of the editor -/

inductive EditorOp
  | insert (pos : UInt64) (text : List UInt8)
  | delete (pos len : UInt64)
  | cursor (op : CursorOp)
  | markSet (pos : UInt64)
  | markClear
  | deleteSelection
  | cut
  | paste (text : List UInt8)
  | undo
  | redo
  deriving DecidableEq, Repr

/-- The buffer after one operation. -/
def EditorOp.step (fresh : Fresh) (b : Buffer) : EditorOp → Option Buffer
  | .insert pos text => (bufferInsert fresh b pos.toNat text).map Prod.snd
  | .delete pos len => (bufferDelete b pos.toNat len.toNat).map Prod.snd
  | .cursor op => op.step b
  | .markSet pos => some (bufferMarkSet b pos.toNat)
  | .markClear => some (bufferMarkClear b)
  | .deleteSelection => (bufferDeleteSelection b).map Prod.snd
  | .cut => (bufferCut b).map Prod.snd
  | .paste text => (bufferPaste fresh b text).map Prod.snd
  | .undo => (bufferUndo fresh b).map Prod.snd
  | .redo => (bufferRedo fresh b).map Prod.snd

/-- The buffer after a sequence of operations. -/
def session (fresh : Fresh) (b : Buffer) (ops : List EditorOp) : Option Buffer :=
  ops.foldlM (fun b op => op.step fresh b) b

/-- Where a paste puts its text: at the start of the selection, or at the cursor. -/
def pasteStart (b : Buffer) : Nat :=
  if bufferHasSelection b then (bufferSelectionRange b).1 else b.cursor

/-! ### The condition -/

/-- An active mark stays inside the text when `n` characters go. -/
def MarkStays (b : Buffer) (n : Nat) : Prop := b.markActive = true → b.mark + n ≤ bufferLength b

instance (b : Buffer) (n : Nat) : Decidable (MarkStays b n) := inferInstanceAs (Decidable (_ → _))

/-- What undo reads: the last record in effect, if it deletes, leaves the mark inside. -/
def UndoOk (b : Buffer) : Prop :=
  b.undoTop = 0 ∨ ∀ r ∈ b.undoRecord (b.undoTop - 1), r.type = .insert → MarkStays b r.len

instance (b : Buffer) : Decidable (UndoOk b) := inferInstanceAs (Decidable (_ ∨ _))

/-- What redo reads: a record that has been written, and if it deletes, it leaves the mark
inside. -/
def RedoOk (b : Buffer) : Prop :=
  b.undoTop ≥ b.undoCap ∨
    (b.undoRecord b.undoTop ≠ none ∧
      ∀ r ∈ b.undoRecord b.undoTop, r.type = .delete → MarkStays b r.len)

instance (b : Buffer) : Decidable (RedoOk b) := inferInstanceAs (Decidable (_ ∨ _))

def EditorOp.Ok (b : Buffer) : EditorOp → Prop
  | .insert _ text =>
    text = [] ∨ (b.undoCap ≤ undoCap ∧ bufferLength b + text.length + gapGrow + 1 < 2 ^ 64)
  | .delete pos len =>
    DeleteOk b pos.toNat len.toNat ∧ MarkStays b (min len.toNat (bufferLength b - pos.toNat))
  | .cursor op => op.Ok b ∧ op.Measured (readBack b)
  | .markSet pos => pos.toNat ≤ bufferLength b
  | .markClear => True
  | .deleteSelection => b.undoCap ≤ undoCap
  | .cut => b.undoCap ≤ undoCap
  | .paste text => text = []
  | .undo => UndoOk b
  | .redo => RedoOk b

instance decidableEditorOpOk (b : Buffer) (op : EditorOp) : Decidable (op.Ok b) := by
  unfold EditorOp.Ok
  cases op <;> infer_instance

/-- Every operation of the session meets the condition in the state it is made in. -/
def SessionOk (fresh : Fresh) : Buffer → List EditorOp → Prop
  | _, [] => True
  | b, op :: ops => op.Ok b ∧ ∀ b' ∈ op.step fresh b, SessionOk fresh b' ops

instance decidableSessionOk (fresh : Fresh) :
    (b : Buffer) → (ops : List EditorOp) → Decidable (SessionOk fresh b ops)
  | _, [] => isTrue trivial
  | b, op :: ops =>
    have : DecidablePred (SessionOk fresh · ops) := fun b => decidableSessionOk fresh b ops
    inferInstanceAs (Decidable (op.Ok b ∧ ∀ b' ∈ op.step fresh b, SessionOk fresh b' ops))

/-! ### Inside the text -/

/-- Cursor and active mark are positions of the text. -/
structure Inside (b : Buffer) (s : List UInt8) : Prop where
  represents : Represents b s
  cursor : b.cursor ≤ s.length
  mark : b.markActive = true → b.mark ≤ s.length

section

variable {b : Buffer} {s : List UInt8} (h : Inside b s) (fresh : Fresh) {op : EditorOp}
  {ops : List EditorOp}
include h

omit fresh in
/-- An edit moves the cursor inside the text it leaves. -/
theorem cursor_edit_le {e : Edit} (htakes : e.Takes s) :
    e.cursor s b.cursor ≤ (e.plain s).length := by
  have hcursor := h.cursor
  have hsmall := h.represents.small
  cases e with
  | insert pos text =>
    have hfits := htakes.2
    show (if b.cursor ≥ min pos s.length then u64 (b.cursor + text.length) else b.cursor) ≤
      (insertAt s pos text).length
    rw [length_insertAt]
    by_cases hbehind : b.cursor ≥ min pos s.length
    · rw [if_pos hbehind, u64_of_lt (by omega)]
      omega
    · rw [if_neg hbehind]
      omega
  | delete pos len =>
    obtain ⟨hlen, hpos, hsum⟩ := htakes
    show (if b.cursor > pos then if b.cursor ≤ min (pos + len) s.length then pos
      else u64Sub b.cursor (min (pos + len) s.length - pos) else b.cursor) ≤
        (removeAt s pos len).length
    rw [length_removeAt]
    by_cases hbehind : b.cursor > pos
    · rw [if_pos hbehind]
      by_cases hin : b.cursor ≤ min (pos + len) s.length
      · rw [if_pos hin]
        omega
      · rw [if_neg hin, u64Sub_of_le (by omega) (by omega)]
        omega
    · rw [if_neg hbehind]
      omega

/-- An edit that leaves the mark inside. -/
theorem inside_edit (hcap : b.undoCap ≤ undoCap) {e : Edit} (htakes : e.Takes s)
    (hmark : b.markActive = true → b.mark ≤ (e.plain s).length) :
    ∃ b', e.call fresh b = some (0, b') ∧ Inside b' (e.plain s) := by
  obtain ⟨b', hcall, hrep, hmoved⟩ := represents_edit h.represents fresh hcap htakes
  refine ⟨b', hcall, hrep, ?_, ?_⟩
  · rw [hmoved.cursor]
    exact cursor_edit_le h htakes
  · rw [hmoved.mark, hmoved.markActive]
    exact hmark

/-- Deleting the selection clears the mark first. -/
theorem inside_deleteSelection (hcap : b.undoCap ≤ undoCap) :
    ∃ r b' s', bufferDeleteSelection b = some (r, b') ∧ Inside b' s' := by
  by_cases hsel : bufferHasSelection b = true
  · have hactive : b.markActive = true := by
      exact (Bool.and_eq_true_iff.mp hsel).1
    have hne : b.mark ≠ b.cursor := by
      simpa using (Bool.and_eq_true_iff.mp hsel).2
    have hmark := h.mark hactive
    have hcursor := h.cursor
    have hsmall := h.represents.small
    obtain ⟨start, stop, hrange, hlt, hle⟩ : ∃ start stop, bufferSelectionRange b = (start, stop) ∧
        start < stop ∧ stop ≤ s.length := by
      unfold bufferSelectionRange
      by_cases hfront : b.cursor < b.mark
      · rw [if_pos hfront]
        exact ⟨_, _, rfl, hfront, hmark⟩
      · rw [if_neg hfront]
        exact ⟨_, _, rfl, by omega, hcursor⟩
    have hinside : Inside { bufferMarkClear b with cursor := start } s :=
      ⟨h.represents.of_eq rfl rfl rfl h.represents.lines rfl rfl rfl, by
        show start ≤ s.length
        omega, fun hcontra => by cases hcontra⟩
    have htakes : (Edit.delete start (stop - start)).Takes s := by
      refine ⟨?_, ?_, ?_⟩ <;> omega
    obtain ⟨b', hcall, hinside'⟩ := inside_edit hinside zeros hcap htakes nofun
    refine ⟨0, b', _, ?_, hinside'⟩
    unfold bufferDeleteSelection
    rw [if_pos hsel, hrange]
    exact hcall
  · refine ⟨-1, b, s, ?_, h⟩
    unfold bufferDeleteSelection
    rw [if_neg hsel]

/-- Undo, if the mark stays. -/
theorem inside_undo (hok : UndoOk b) :
    ∃ r b' s', bufferUndo fresh b = some (r, b') ∧ Inside b' s' := by
  obtain ⟨past, future, hrec, ⟨s₀, hpast⟩, s₁, hfuture⟩ := h.represents.history
  have hlen : bufferLength b = s.length := h.represents.holds.length
  by_cases htop : b.undoTop = 0
  · refine ⟨-1, b, s, ?_, h⟩
    unfold bufferUndo
    rw [if_pos htop]
  · have hne : past ≠ [] := by
      intro hnil
      rw [hrec.top, hnil] at htop
      exact htop rfl
    obtain ⟨rest, r, rfl⟩ : ∃ rest r, past = rest ++ [r] :=
      ⟨past.dropLast, past.getLast hne, (dropLast_append_getLast hne).symm⟩
    obtain ⟨t, hrest, hfit, hredone⟩ := leads_snoc.mp hpast
    have hread := hrec.last
    have hholds : Holds b (r.redone t) := hredone ▸ h.represents.holds
    obtain ⟨b', hundo, hmoved, hrec'⟩ := undo_step fresh hfit hholds hrec
    have hstays := hok.resolve_left htop r hread
    have hsize := length_redone hfit
    rw [hredone] at hsize
    refine ⟨0, b', t, hundo, ⟨⟨hmoved.holds, hfit.small, ?_, hmoved.quiet, rest, r :: future, hrec',
      ⟨s₀, hrest⟩, s₁, hfit, ?_⟩, ?_, ?_⟩⟩
    · intro hclean
      rw [hmoved.dirty] at hclean
      cases hclean
    · rw [hredone]
      exact hfuture
    · rw [hmoved.cursor]
      rcases hfit.cases with ⟨pos, text, rfl, -⟩ | ⟨pos, len, rfl, -⟩ <;> exact hsize.2
    · rw [hmoved.mark, hmoved.markActive]
      intro hactive
      have hmark := h.mark hactive
      rcases hfit.cases with ⟨pos, text, rfl, -⟩ | ⟨pos, len, rfl, -⟩
      · have hstay := hstays rfl hactive
        omega
      · simp only at hsize
        omega

/-- Redo, if the mark stays. -/
theorem inside_redo (hok : RedoOk b) :
    ∃ r b' s', bufferRedo fresh b = some (r, b') ∧ Inside b' s' := by
  obtain ⟨past, future, hrec, ⟨s₀, hpast⟩, s₁, hfuture⟩ := h.represents.history
  have hlen : bufferLength b = s.length := h.represents.holds.length
  by_cases hfull : b.undoTop ≥ b.undoCap
  · refine ⟨-1, b, s, ?_, h⟩
    unfold bufferRedo
    rw [if_pos hfull]
  obtain ⟨hwritten, hstays⟩ := hok.resolve_left hfull
  cases future with
  | nil =>
    -- The record at the top is a spare one: written, and without a text.
    obtain ⟨q, hq⟩ := ne_none_iff_exists'.mp hwritten
    refine ⟨-1, b, s, ?_, h⟩
    have htext := hrec.spare hq
    unfold bufferRedo
    rw [if_neg hfull, hq, bind_eq_bind, bind_some, if_pos htext]
    rfl
  | cons r rest =>
    obtain ⟨hfit, hrest⟩ := hfuture
    have hread := hrec.first
    obtain ⟨b', hredo, hmoved, hrec'⟩ := redo_step fresh hfit h.represents.holds hrec
    have hstays := hstays r hread
    have hsize := length_redone hfit
    refine ⟨0, b', _, hredo, ⟨⟨hmoved.holds, hfit.small_redone, ?_, hmoved.quiet, past ++ [r], rest,
      hrec', ⟨s₀, leads_snoc.mpr ⟨s, hpast, hfit, rfl⟩⟩, s₁, hrest⟩, ?_, ?_⟩⟩
    · intro hclean
      rw [hmoved.dirty] at hclean
      cases hclean
    · rw [hmoved.cursor]
      unfold UndoRecord.cursorAfter
      rcases hfit.cases with ⟨pos, text, rfl, -⟩ | ⟨pos, len, rfl, -⟩
      all_goals
        simp only at hsize ⊢
        omega
    · rw [hmoved.mark, hmoved.markActive]
      intro hactive
      have hmark := h.mark hactive
      rcases hfit.cases with ⟨pos, text, rfl, -⟩ | ⟨pos, len, rfl, -⟩
      · simp only at hsize
        omega
      · have hstay := hstays rfl hactive
        omega

/-- **One operation keeps cursor and mark inside the text.** -/
theorem inside_step (hok : op.Ok b) : ∃ b' s', op.step fresh b = some b' ∧ Inside b' s' := by
  have hlen : bufferLength b = s.length := h.represents.holds.length
  have hmap : ∀ {x : Option (Int × Buffer)} {r : Int} {b' : Buffer}, x = some (r, b') →
      x.map Prod.snd = some b' := by
    intro x r b' heq
    rw [heq]
    rfl
  cases op with
  | insert pos text =>
    unfold EditorOp.Ok at hok
    rw [hlen] at hok
    by_cases hnil : text = []
    · refine ⟨b, s, hmap (r := -1) ?_, h⟩
      rw [hnil]
      rfl
    · obtain ⟨hcap, hfits⟩ := hok.resolve_left hnil
      have htakes : (Edit.insert pos.toNat text).Takes s := ⟨hnil, hfits⟩
      obtain ⟨b', hcall, hinside⟩ := inside_edit h fresh hcap htakes (fun hactive => by
        have := h.mark hactive
        show b.mark ≤ (insertAt s pos.toNat text).length
        rw [length_insertAt]
        omega)
      exact ⟨b', _, hmap hcall, hinside⟩
  | delete pos len =>
    obtain ⟨hdelete, hstays⟩ := hok
    unfold DeleteOk at hdelete
    rw [hlen] at hdelete hstays
    by_cases hnone : len.toNat = 0 ∨ s.length ≤ pos.toNat
    · refine ⟨b, s, hmap (r := -1) ?_, h⟩
      unfold bufferDelete
      rcases hnone with hzero | hbehind
      · rw [if_pos hzero]
      · by_cases hzero : len.toNat = 0
        · rw [if_pos hzero]
        · rw [if_neg hzero, h.represents.holds.length, if_pos hbehind]
    · obtain ⟨hzero, hpos⟩ := not_or.mp hnone
      obtain ⟨hcap, hsum⟩ := (hdelete.resolve_left hzero).resolve_left hpos
      have htakes : (Edit.delete pos.toNat len.toNat).Takes s := ⟨hzero, Nat.not_le.mp hpos, hsum⟩
      obtain ⟨b', hcall, hinside⟩ := inside_edit h fresh hcap htakes (fun hactive => by
        have := hstays hactive
        show b.mark ≤ (removeAt s pos.toNat len.toNat).length
        rw [length_removeAt]
        omega)
      exact ⟨b', _, hmap hcall, hinside⟩
  | cursor op =>
    obtain ⟨hmove, hmeasured⟩ := hok
    rw [h.represents.holds.readBack] at hmeasured
    obtain ⟨b', heq, hglided, hin⟩ := cursor_step h.represents hmove
    refine ⟨b', s, heq, hglided.represents, hin h.cursor hmeasured, ?_⟩
    rw [hglided.mark, hglided.markActive]
    exact h.mark
  | markSet pos =>
    refine ⟨_, s, rfl, h.represents.of_eq rfl rfl rfl h.represents.lines rfl rfl rfl, h.cursor, ?_⟩
    intro _
    exact hlen ▸ hok
  | markClear =>
    refine ⟨_, s, rfl, h.represents.of_eq rfl rfl rfl h.represents.lines rfl rfl rfl, h.cursor, ?_⟩
    intro hcontra
    cases hcontra
  | deleteSelection =>
    obtain ⟨r, b', s', heq, hinside⟩ := inside_deleteSelection h hok
    exact ⟨b', s', hmap heq, hinside⟩
  | cut =>
    obtain ⟨r, b', s', heq, hinside⟩ := inside_deleteSelection h hok
    show ∃ b' s', (bufferCut b).map Prod.snd = some b' ∧ Inside b' s'
    unfold bufferCut
    cases bufferCopy b with
    | none => exact ⟨b, s, rfl, h⟩
    | some copied =>
      rw [heq]
      exact ⟨b', s', rfl, hinside⟩
  | paste text =>
    refine ⟨b, s, hmap (r := -1) ?_, h⟩
    have hnil : text = [] := hok
    rw [hnil]
    rfl
  | undo =>
    obtain ⟨r, b', s', heq, hinside⟩ := inside_undo h fresh hok
    exact ⟨b', s', hmap heq, hinside⟩
  | redo =>
    obtain ⟨r, b', s', heq, hinside⟩ := inside_redo h fresh hok
    exact ⟨b', s', hmap heq, hinside⟩

/-- **A whole session.** -/
theorem inside_session (hok : SessionOk fresh b ops) :
    ∃ b' s', session fresh b ops = some b' ∧ Inside b' s' := by
  induction ops generalizing b s with
  | nil => exact ⟨b, s, rfl, h⟩
  | cons op ops ih =>
    obtain ⟨b₁, s₁, hstep, hinside⟩ := inside_step h fresh hok.1
    obtain ⟨b', s', hrun, hinside'⟩ := ih hinside (hok.2 b₁ hstep)
    refine ⟨b', s', ?_, hinside'⟩
    unfold session
    rw [foldlM_cons, hstep]
    exact hrun

end

/-- The last operation of a session meets its condition where it is made. -/
theorem SessionOk.last {fresh : Fresh} {b b₀ : Buffer} (hok : SessionOk fresh b (ops ++ [op]))
    (hrun : session fresh b ops = some b₀) : op.Ok b₀ := by
  induction ops generalizing b with
  | nil =>
    obtain rfl : b = b₀ := some.inj hrun
    exact hok.1
  | cons first ops ih =>
    obtain ⟨b₁, hstep, hrest⟩ := bind_eq_some_iff.mp hrun
    exact ih (hok.2 b₁ hstep) hrest

/-- **Cursor and mark stay inside the text** in every session whose operations meet the
condition, and the cursor is right after every paste in it. -/
theorem session_inside (fresh : Fresh) {b : Buffer} {s : List UInt8} (h : Inside b s)
    (ops : List EditorOp) (hok : SessionOk fresh b ops) :
    ∃ b', session fresh b ops = some b' ∧ b'.cursor ≤ bufferLength b' ∧
      (b'.markActive = true → b'.mark ≤ bufferLength b') ∧
      ∀ before text, ops = before ++ [.paste text] → ∀ b₀ ∈ session fresh b before, text ≠ [] →
        b'.cursor = pasteStart b₀ + text.length := by
  obtain ⟨b', s', hrun, hinside⟩ := inside_session h fresh hok
  have hlen : bufferLength b' = s'.length := hinside.represents.holds.length
  refine ⟨b', hrun, ?_, ?_, ?_⟩
  · rw [hlen]
    exact hinside.cursor
  · rw [hlen]
    exact hinside.mark
  · rintro before text rfl b₀ hb₀ hne
    exact absurd (hok.last hb₀) hne

theorem inside_bufferNew (fresh : Fresh) : Inside (bufferNew fresh) [] := by
  refine ⟨represents_bufferNew fresh, Nat.le_refl 0, ?_⟩
  intro hcontra
  cases hcontra

/-- Typing, marking, cutting, undoing and redoing. -/
def someSession : List EditorOp :=
  [.insert 0 [97, 98, 99], .markSet 1, .cursor .lineEnd, .cut, .undo, .redo, .paste []]

theorem session_inside_some :
    SessionOk zeros (bufferNew zeros) someSession ∧
      ∃ b', session zeros (bufferNew zeros) someSession = some b' ∧ b'.cursor ≤ bufferLength b' ∧
        (b'.markActive = true → b'.mark ≤ bufferLength b') ∧
        ∀ before text, someSession = before ++ [.paste text] →
          ∀ b₀ ∈ session zeros (bufferNew zeros) before, text ≠ [] →
            b'.cursor = pasteStart b₀ + text.length := by
  have hok : SessionOk zeros (bufferNew zeros) someSession := by decide +kernel
  exact ⟨hok, session_inside zeros (inside_bufferNew zeros) someSession hok⟩

/-- With nothing selected a paste moves the cursor by the length of its text once more. -/
theorem paste_overshoots {b : Buffer} {s text : List UInt8} (h : Inside b s) (fresh : Fresh)
    (hsel : bufferHasSelection b = false) (hcap : b.undoCap ≤ undoCap) (hne : text ≠ [])
    (hfits : s.length + text.length + gapGrow + 1 < 2 ^ 64) :
    ∃ b', bufferPaste fresh b text = some (0, b') ∧
      b'.cursor = u64 (pasteStart b + text.length + text.length) := by
  obtain ⟨b', hcall, -, hmoved⟩ := represents_edit h.represents fresh hcap
    (show (Edit.insert b.cursor text).Takes s from ⟨hne, hfits⟩)
  have hcursor : b'.cursor = u64 (b.cursor + text.length) :=
    hmoved.cursor.trans (if_pos (Nat.min_le_left _ _))
  have hle := h.cursor
  refine ⟨{ b' with cursor := u64 (b'.cursor + text.length) }, ?_, ?_⟩
  · have hcall : bufferInsert fresh b b.cursor text = some (0, b') := hcall
    simp [bufferPaste, hne, hsel, hcall]
  · simp [pasteStart, hsel, hcursor, u64_of_lt (show b.cursor + text.length < 2 ^ 64 by omega)]

/-- **A paste into an empty buffer puts the cursor behind the end**: `ab` pasted gives a text of
two characters and the cursor 4. -/
theorem paste_beyond_end :
    (session zeros (bufferNew zeros) [.paste [97, 98]]).map (fun b => (b.cursor, bufferLength b)) =
      some (4, 2) := by
  decide +kernel

end Nv0ken.TextEditor
