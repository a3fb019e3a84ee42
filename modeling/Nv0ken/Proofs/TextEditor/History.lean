/-
The records of the editor's edits.

The array holds, from the bottom, the records of the edits that are in effect, then those
of edits that have been undone, then records without a text.  `Layout` says this.  While
the array has its first size, all of it has been written to, and recording an edit gives
the undone records back and puts the new one in their place.  The edit that finds the
array full doubles it, and the new half is memory nothing was written to: the next edit
to be recorded frees what it finds there.  `Recorded.push_enlarged` says that this is so for
every enlarged array, whatever has been undone since.

A record is also an edit of a plain text.  `Leads` follows a list of records from text to
text, each of them made for the text it meets; such a record can be undone, and that is
all the history has to know about texts.
-/
import Nv0ken.Proofs.TextEditor.Text

namespace Nv0ken.TextEditor

open List Option

open Nv0ken.Word (u64 u64Sub u64_of_lt)

/-! ### The array of records -/

/-- Records in effect, records undone, and the spare ones. -/
inductive Layout (past future : List UndoRecord) : List (Option UndoRecord) → Prop
  /-- The array has its first size; the spare records have no text. -/
  | first (rest : List UndoRecord) (hrest : ∀ r ∈ rest, r.text = none)
      (hlen : past.length + future.length + rest.length = undoCap) :
      Layout past future ((past ++ future ++ rest).map some)
  /-- The array has been doubled; only one record of the new half has been written. -/
  | enlarged (hlen : past.length + future.length = undoCap + 1) :
      Layout past future ((past ++ future).map some ++ List.replicate (undoCap - 1) none)

/-- The records a buffer holds. -/
structure Recorded (b : Buffer) (past future : List UndoRecord) : Prop where
  top : b.undoTop = past.length
  stack : match b.undoStack with
    | none => past = [] ∧ future = []
    | some stack => Layout past future stack

variable {top pos : Nat} {stack : List (Option UndoRecord)} {s t text : List UInt8} {b : Buffer}
  {r : UndoRecord} {past future rs : List UndoRecord}

theorem undoClearFrom_written {records : List UndoRecord} : undoClearFrom (records.map some) top =
      some ((records.take top ++ (records.drop top).map UndoRecord.clear).map some) := by
  have hclear : ∀ rs : List UndoRecord,
      (rs.map some).mapM (fun r => r.map fun r : UndoRecord => some r.clear) =
        some (rs.map fun r => some r.clear) := by
    intro rs
    induction rs with
    | nil => rfl
    | cons r rs ih => simp [ih]
  unfold undoClearFrom
  rw [← map_drop, hclear, ← map_take, map_append, List.map_map]
  rfl

theorem undoClearFrom_unwritten (h : none ∈ stack.drop top) : undoClearFrom stack top = none := by
  have hfree : ∀ rs : List (Option UndoRecord), none ∈ rs →
      rs.mapM (fun r => r.map fun r : UndoRecord => some r.clear) = none := by
    intro rs
    induction rs with
    | nil => intro hmem; simp at hmem
    | cons r rs ih =>
      intro hmem
      rcases mem_cons.mp hmem with heq | hrest
      · simp [← heq]
      · simp [ih hrest]
  unfold undoClearFrom
  rw [hfree _ h]
  rfl

/-- What `undo_push` makes of an array of the first size: the new record in the place of the
first one that was undone. -/
theorem Layout.push (h : Layout past future stack) (hcap : stack.length ≤ undoCap)
    (r : UndoRecord) :
    ∃ cleared, undoClearFrom stack past.length = some cleared ∧
      Layout (past ++ [r]) []
        ((if past.length ≥ cleared.length then cleared ++ List.replicate cleared.length none
          else cleared).set past.length (some r)) := by
  cases h with
  | enlarged hlen =>
    simp only [length_append, length_map, length_replicate] at hcap
    omega
  | first rest hrest hlen =>
    refine ⟨_, undoClearFrom_written, ?_⟩
    rw [append_assoc, take_left, drop_left]
    generalize hspare : (future ++ rest).map UndoRecord.clear = spare
    have hslen : past.length + spare.length = undoCap := by
      rw [← hspare, length_map, length_append]
      omega
    have hnone : ∀ q ∈ spare, q.text = none := by
      intro q hq
      rw [← hspare] at hq
      obtain ⟨p, -, rfl⟩ := mem_map.mp hq
      rfl
    have hset : ∀ tail : List (Option UndoRecord), ∀ x,
        ((past.map some ++ x :: tail).set past.length (some r)) =
          (past ++ [r]).map some ++ tail := by
      simp
    cases spare with
    | nil =>
      -- The array is full: the new half follows the records in effect.
      have hfull : past.length = undoCap := by simpa using hslen
      have hlong : past.length ≥ ((past ++ ([] : List UndoRecord)).map some).length := by simp
      rw [if_pos hlong, append_nil, length_map, hfull]
      have hhalf : replicate undoCap (none : Option UndoRecord) =
          none :: replicate (undoCap - 1) none := rfl
      have hnew := hset (replicate (undoCap - 1) none) none
      rw [hfull] at hnew
      rw [hhalf, hnew]
      simpa using @Layout.enlarged (past ++ [r]) [] (by simp [hfull])
    | cons q spare =>
      simpa using @Layout.first (past ++ [r]) [] spare
        (fun p hp => hnone p (mem_cons_of_mem _ hp)) (by simp at hslen ⊢; omega)

/-- There is no array, and no record, or the array holds the records. -/
theorem Recorded.cases (h : Recorded b past future) : b.undoStack = none ∧ past = [] ∧ future = [] ∨
    ∃ stack, b.undoStack = some stack ∧ Layout past future stack := by
  have hstack := h.stack
  cases hs : b.undoStack with
  | none =>
    rw [hs] at hstack
    exact Or.inl ⟨rfl, hstack⟩
  | some stack =>
    rw [hs] at hstack
    exact Or.inr ⟨stack, rfl, hstack⟩

section

variable (h : Recorded b past future) (hquiet : b.inUndo = false)
include h hquiet

/-- Recording an edit: the undone records are gone, and the new one is the last. -/
theorem Recorded.push (hcap : b.undoCap ≤ undoCap) (type : UndoType) (pos : Nat)
    (text : List UInt8) (hsize : text.length + 1 < 2 ^ 64) :
    ∃ hist, undoPush b type pos text = some hist ∧
      Recorded hist (past ++ [⟨type, pos, some text, text.length⟩]) [] := by
  have hmem : xmalloc (u64 (text.length + 1)) = true := by
    rw [u64_of_lt hsize]
    simp [xmalloc]
  have htop := h.top
  unfold undoPush
  simp only [hquiet, Bool.false_eq_true, if_false, hmem, if_true]
  rcases h.cases with ⟨hs, rfl, rfl⟩ | ⟨stack, hs, hlayout⟩
  · have hzero : Layout [] [] (replicate undoCap (some UndoRecord.zero)) := by
      simpa using @Layout.first [] [] (replicate undoCap UndoRecord.zero)
        (by intro r hr; rw [eq_of_mem_replicate hr]; rfl) (by simp)
    obtain ⟨cleared, hclear, hpush⟩ := hzero.push (by simp) ⟨type, pos, some text, text.length⟩
    simp only [length_nil] at hclear hpush
    simp only [hs, hclear, bind_eq_bind, bind_some]
    exact ⟨_, rfl, ⟨by simp, hpush⟩⟩
  · have hlen : stack.length ≤ undoCap := by
      unfold Buffer.undoCap at hcap
      rw [hs] at hcap
      exact hcap
    obtain ⟨cleared, hclear, hpush⟩ := hlayout.push hlen ⟨type, pos, some text, text.length⟩
    rw [← htop] at hclear hpush
    simp only [hs, hclear, bind_eq_bind, bind_some]
    exact ⟨_, rfl, ⟨by simp [htop], hpush⟩⟩

/-- **No edit can be recorded in an enlarged array.** -/
theorem Recorded.push_enlarged (hcap : undoCap < b.undoCap) (type : UndoType) (pos : Nat)
    (text : List UInt8) : undoPush b type pos text = none := by
  have htop := h.top
  unfold undoPush
  simp only [hquiet, Bool.false_eq_true, if_false]
  unfold Buffer.undoCap at hcap
  rcases h.cases with ⟨hs, -⟩ | ⟨stack, hs, hlayout⟩
  · rw [hs] at hcap
    simp at hcap
  · rw [hs] at hcap
    have hfree : undoClearFrom stack b.undoTop = none := by
      refine undoClearFrom_unwritten ?_
      cases hlayout with
      | first rest hrest hlen =>
        simp only [getD_some, length_map, length_append] at hcap
        omega
      | enlarged hlen =>
        rw [htop, drop_append_of_le_length (by simp)]
        refine mem_append_right _ ?_
        rw [mem_replicate]
        exact ⟨by decide, rfl⟩
    simp only [hs, hfree, bind_eq_bind, bind_none]

end

/-! ### Records as edits of a text -/

/-- The record is one of an edit of `s`. -/
def UndoRecord.Fits (r : UndoRecord) (s : List UInt8) : Prop :=
  match r.type with
  | .insert =>
    r.len ≠ 0 ∧ r.pos ≤ s.length ∧ s.length + r.len + gapGrow + 1 < 2 ^ 64 ∧
      ∃ text, r.text = some text ∧ text.length = r.len
  | .delete =>
    r.len ≠ 0 ∧ r.pos + r.len ≤ s.length ∧ s.length + gapGrow + 1 < 2 ^ 64 ∧
      r.text = some ((s.drop r.pos).take r.len)

/-- The text with the edit in effect. -/
def UndoRecord.redone (r : UndoRecord) (s : List UInt8) : List UInt8 :=
  match r.type with
  | .insert => insertAt s r.pos (r.text.getD [])
  | .delete => removeAt s r.pos r.len

/-- The records are those of edits that lead from one text to the other. -/
def Leads : List UInt8 → List UndoRecord → List UInt8 → Prop
  | s, [], t => s = t
  | s, r :: rs, t => r.Fits s ∧ Leads (r.redone s) rs t

theorem leads_append {qs : List UndoRecord} :
    Leads s (rs ++ qs) t ↔ ∃ u, Leads s rs u ∧ Leads u qs t := by
  induction rs generalizing s with
  | nil =>
    constructor
    · intro h
      exact ⟨s, rfl, h⟩
    · rintro ⟨u, rfl, h⟩
      exact h
  | cons r rs ih =>
    constructor
    · rintro ⟨hfit, hrest⟩
      obtain ⟨u, hu, hqs⟩ := ih.mp hrest
      exact ⟨u, ⟨hfit, hu⟩, hqs⟩
    · rintro ⟨u, ⟨hfit, hu⟩, hqs⟩
      exact ⟨hfit, ih.mpr ⟨u, hu, hqs⟩⟩

theorem leads_snoc :
    Leads s (rs ++ [r]) t ↔ ∃ u, Leads s rs u ∧ r.Fits u ∧ r.redone u = t := leads_append

theorem length_insertAt (s : List UInt8) (pos : Nat) (text : List UInt8) :
    (insertAt s pos text).length = s.length + text.length := by
  unfold insertAt
  simp only [length_append, length_take, length_drop]
  omega

theorem length_removeAt (s : List UInt8) (pos len : Nat) :
    (removeAt s pos len).length = s.length - (min (pos + len) s.length - pos) := by
  unfold removeAt
  simp only [length_append, length_take, length_drop]
  omega

theorem removeAt_insertAt {s : List UInt8} (h : pos ≤ s.length) :
    removeAt (insertAt s pos text) pos text.length = s := by
  have hlen : (s.take pos).length = pos := by
    rw [length_take]
    omega
  unfold removeAt insertAt
  rw [append_assoc, take_left' hlen, ← drop_drop, drop_left' hlen, drop_left, take_append_drop]

theorem insertAt_removeAt {len : Nat} (h : pos ≤ s.length) :
    insertAt (removeAt s pos len) pos ((s.drop pos).take len) = s := by
  have hlen : (s.take pos).length = pos := by
    rw [length_take]
    omega
  unfold removeAt insertAt
  rw [take_left' hlen, drop_left' hlen, ← drop_drop, append_assoc, take_append_drop,
    take_append_drop]

/-- The two kinds of records. -/
theorem UndoRecord.Fits.cases (h : r.Fits s) :
    (∃ pos text, r = ⟨.insert, pos, some text, text.length⟩ ∧ text ≠ [] ∧ pos ≤ s.length ∧
      s.length + text.length + gapGrow + 1 < 2 ^ 64) ∨
    ∃ pos len, r = ⟨.delete, pos, some ((s.drop pos).take len), len⟩ ∧ len ≠ 0 ∧
      pos + len ≤ s.length ∧
      s.length + gapGrow + 1 < 2 ^ 64 := by
  obtain ⟨type, pos, text, len⟩ := r
  cases type with
  | insert =>
    obtain ⟨hne, hpos, hfits, bytes, rfl, rfl⟩ := h
    exact Or.inl ⟨pos, bytes, rfl, fun hnil => hne (congrArg length hnil), hpos, hfits⟩
  | delete =>
    obtain ⟨hne, hin, hsmall, htext⟩ := h
    exact Or.inr ⟨pos, len, congrArg (UndoRecord.mk _ _ · _) htext, hne, hin, hsmall⟩

theorem length_redone (h : r.Fits t) : match r.type with
    | .insert => (r.redone t).length = t.length + r.len ∧ r.pos ≤ t.length
    | .delete => (r.redone t).length = t.length - r.len ∧ r.pos + r.len ≤ t.length := by
  rcases h.cases with ⟨pos, text, rfl, -, hpos, -⟩ | ⟨pos, len, rfl, -, hin, -⟩
  · exact ⟨length_insertAt t pos text, hpos⟩
  · refine ⟨(length_removeAt t pos len).trans ?_, hin⟩
    simp only at hin ⊢
    omega

theorem UndoRecord.Fits.small (h : r.Fits s) : s.length + gapGrow + 1 < 2 ^ 64 := by
  rcases h.cases with ⟨pos, text, -, -, -, hfits⟩ | ⟨pos, len, -, -, -, hsmall⟩
  · omega
  · exact hsmall

theorem UndoRecord.Fits.small_redone (h : r.Fits s) :
    (r.redone s).length + gapGrow + 1 < 2 ^ 64 := by
  have hsize := length_redone h
  rcases h.cases with ⟨pos, text, rfl, -, -, hfits⟩ | ⟨pos, len, rfl, -, -, hsmall⟩
  · rw [hsize.1]
    exact hfits
  · rw [hsize.1]
    omega

/-! ### Edits, undo and redo -/

/-- The text of `b'` is `s` and its cursor `cursor`; the mark is that of `b`. -/
structure Moved (b b' : Buffer) (s : List UInt8) (cursor : Nat) : Prop where
  holds : Holds b' s
  dirty : b'.linesDirty = true
  quiet : b'.inUndo = false
  cursor : b'.cursor = cursor
  mark : b'.mark = b.mark
  markActive : b'.markActive = b.markActive

/-- An edit of the text. -/
inductive Edit
  | insert (pos : Nat) (text : List UInt8)
  | delete (pos len : Nat)
  deriving DecidableEq, Repr

namespace Edit

/-- The call of the buffer. -/
def call (fresh : Fresh) (b : Buffer) : Edit → Option (Int × Buffer)
  | insert pos text => bufferInsert fresh b pos text
  | delete pos len => bufferDelete b pos len

/-- The edit of a plain text. -/
def plain (s : List UInt8) : Edit → List UInt8
  | insert pos text => insertAt s pos text
  | delete pos len => removeAt s pos len

/-- The edit takes place: there is something to insert or to delete, and its sizes are ones
memory can have. -/
def Takes (s : List UInt8) : Edit → Prop
  | insert _ text => text ≠ [] ∧ s.length + text.length + gapGrow + 1 < 2 ^ 64
  | delete pos len => len ≠ 0 ∧ pos < s.length ∧ pos + len < 2 ^ 64

instance (s : List UInt8) : (e : Edit) → Decidable (e.Takes s)
  | insert _ _ => inferInstanceAs (Decidable (_ ∧ _))
  | delete _ _ => inferInstanceAs (Decidable (_ ∧ _))

/-- What is recorded of the edit. -/
def record (s : List UInt8) : Edit → UndoRecord
  | insert pos text => ⟨.insert, min pos s.length, some text, text.length⟩
  | delete pos len => ⟨.delete, pos, some ((s.drop pos).take len), ((s.drop pos).take len).length⟩

/-- Where the edit moves a cursor to. -/
def cursor (s : List UInt8) (cursor : Nat) : Edit → Nat
  | insert pos text => if cursor ≥ min pos s.length then u64 (cursor + text.length) else cursor
  | delete pos len =>
    if cursor > pos then
      if cursor ≤ min (pos + len) s.length then pos
      else u64Sub cursor (min (pos + len) s.length - pos)
    else cursor

end Edit

variable {e : Edit}

/-- The record is one of this edit. -/
theorem record_fits (htakes : e.Takes s) (hsmall : s.length + gapGrow + 1 < 2 ^ 64) :
    (e.record s).Fits s ∧ (e.record s).redone s = e.plain s := by
  cases e with
  | insert pos text =>
    obtain ⟨hne, hfits⟩ := htakes
    exact ⟨⟨fun hzero => hne (length_eq_zero_iff.mp hzero), Nat.min_le_right _ _, hfits, text,
      rfl, rfl⟩, insertAt_clamp s pos text⟩
  | delete pos len =>
    obtain ⟨hlen, hpos, -⟩ := htakes
    have htaken : ((s.drop pos).take len).length = min len (s.length - pos) := by
      rw [length_take, length_drop]
    have hzero : ((s.drop pos).take len).length ≠ 0 := by omega
    have hend : pos + ((s.drop pos).take len).length ≤ s.length := by omega
    refine ⟨⟨hzero, hend, hsmall, ?_⟩, ?_⟩
    · show some ((s.drop pos).take len) = some ((s.drop pos).take ((s.drop pos).take len).length)
      rw [length_take, ← take_take, take_length]
    · show removeAt s pos ((s.drop pos).take len).length = _
      rw [htaken]
      exact removeAt_clamp (Nat.le_of_lt hpos) len

section

variable (fresh : Fresh) (h : Holds b s) (hquiet : b.inUndo = false) (hrec : Recorded b past future)
include h hquiet hrec

/-- **An edit changes the text and becomes the last record**, if the array has its first
size. -/
theorem edit_step (hcap : b.undoCap ≤ undoCap) (htakes : e.Takes s) :
    ∃ b', e.call fresh b = some (0, b') ∧ Moved b b' (e.plain s) (e.cursor s b.cursor) ∧
      Recorded b' (past ++ [e.record s]) [] := by
  cases e with
  | insert pos text =>
    obtain ⟨hne, hfits⟩ := htakes
    obtain ⟨data, lo, hi, heq, hholds⟩ := bufferInsert_eq h fresh pos hne hfits
    obtain ⟨hist, hpush, hrec'⟩ := hrec.push hquiet hcap .insert (min pos s.length) text (by omega)
    rw [hpush] at heq
    exact ⟨_, heq, ⟨hholds _ _, rfl, hquiet, rfl, rfl, rfl⟩, ⟨hrec'.top, hrec'.stack⟩⟩
  | delete pos len =>
    obtain ⟨hlen, hpos, hsum⟩ := htakes
    have hsize := h.size
    have hslen := h.length_eq
    obtain ⟨data, hi, heq, hholds⟩ := bufferDelete_eq h hlen hpos hsum
    obtain ⟨hist, hpush, hrec'⟩ := hrec.push hquiet hcap .delete pos ((s.drop pos).take len) (by
      rw [length_take, length_drop]
      omega)
    rw [hpush] at heq
    exact ⟨_, heq, ⟨hholds _ _, rfl, hquiet, rfl, rfl, rfl⟩, ⟨hrec'.top, hrec'.stack⟩⟩

/-- **An edit is undefined**, if the array has been enlarged. -/
theorem edit_enlarged (hcap : undoCap < b.undoCap) (htakes : e.Takes s) :
    e.call fresh b = none := by
  cases e with
  | insert pos text =>
    obtain ⟨hne, hfits⟩ := htakes
    obtain ⟨data, lo, hi, heq, -⟩ := bufferInsert_eq h fresh pos hne hfits
    rw [hrec.push_enlarged hquiet hcap] at heq
    exact heq
  | delete pos len =>
    obtain ⟨hlen, hpos, hsum⟩ := htakes
    obtain ⟨data, hi, heq, -⟩ := bufferDelete_eq h hlen hpos hsum
    rw [hrec.push_enlarged hquiet hcap] at heq
    exact heq

end

/-- The boundary between the records in effect and the undone ones may be anywhere. -/
theorem Layout.of_eq {past' future' : List UndoRecord} (h : Layout past future stack)
    (heq : past ++ future = past' ++ future') : Layout past' future' stack := by
  have hsame := congrArg length heq
  rw [length_append, length_append] at hsame
  cases h with
  | first rest hrest hlen =>
    rw [heq]
    exact .first rest hrest (by omega)
  | enlarged hlen =>
    rw [heq]
    exact .enlarged (by omega)

theorem layout_shift : Layout (past ++ [r]) future stack ↔ Layout past (r :: future) stack :=
  ⟨fun h => h.of_eq (by simp), fun h => h.of_eq (by simp)⟩

theorem Layout.getElem? (h : Layout past (r :: future) stack) :
    stack[past.length]? = some (some r) := by
  cases h <;> simp

/-- There is an array as soon as there is a record. -/
theorem Recorded.stack_of_ne_nil (h : Recorded b past future) (hne : past ++ future ≠ []) :
    ∃ stack, b.undoStack = some stack ∧ Layout past future stack := by
  refine h.cases.resolve_left ?_
  rintro ⟨-, rfl, rfl⟩
  exact hne rfl

/-- Redo reads the first undone record. -/
theorem Recorded.first (h : Recorded b past (r :: future)) : b.undoRecord b.undoTop = some r := by
  obtain ⟨stack, hstack, hlayout⟩ := h.stack_of_ne_nil (by simp)
  unfold Buffer.undoRecord
  rw [hstack, h.top]
  simp [hlayout.getElem?]

/-- Undo reads the last record in effect. -/
theorem Recorded.last (h : Recorded b (past ++ [r]) future) :
    b.undoRecord (b.undoTop - 1) = some r := by
  obtain ⟨stack, hstack, hlayout⟩ := h.stack_of_ne_nil (by simp)
  unfold Buffer.undoRecord
  rw [hstack, h.top]
  simp [(layout_shift.mp hlayout).getElem?]

/-- A record that redo finds behind all others has no text. -/
theorem Recorded.spare (h : Recorded b past []) (hr : b.undoRecord b.undoTop = some r) :
    r.text = none := by
  unfold Buffer.undoRecord at hr
  rcases h.cases with ⟨hs, -⟩ | ⟨stack, hs, hlayout⟩
  · rw [hs] at hr
    cases hr
  · rw [hs, h.top, bind_some] at hr
    cases hlayout with
    | first rest hrest hlen =>
      simp only [append_nil, map_append, getElem?_append_right, length_map, Nat.le_refl,
        Nat.sub_self, getElem?_map] at hr
      cases hget : rest[0]? with
      | none =>
        rw [hget] at hr
        cases hr
      | some q =>
        rw [hget] at hr
        obtain rfl : q = r := some.inj hr
        exact hrest q (mem_of_getElem? hget)
    | enlarged hlen =>
      rw [getElem?_append_right (by simp)] at hr
      rw [getElem?_replicate] at hr
      split_ifs at hr <;> cases hr

/-- Where the cursor stands when the edit of a record has just been made again. -/
def UndoRecord.cursorAfter (r : UndoRecord) : Nat :=
  match r.type with
  | .insert => r.pos + r.len
  | .delete => r.pos

/-- Where the cursor stands when the edit of a record has just been undone. -/
def UndoRecord.cursorBefore (r : UndoRecord) : Nat :=
  match r.type with
  | .insert => r.pos
  | .delete => r.pos + r.len

/-- What undo and redo make of the buffer before they count the records: the text is `s`, the cursor
`cursor`, and nothing is recorded. -/
structure Again (b b' : Buffer) (s : List UInt8) (cursor : Nat) : Prop where
  holds : Holds b' s
  dirty : b'.linesDirty = true
  cursor : b'.cursor = cursor
  mark : b'.mark = b.mark
  markActive : b'.markActive = b.markActive
  stack : b'.undoStack = b.undoStack
  top : b'.undoTop = b.undoTop

section

variable {b' : Buffer} {cursor : Nat} (h : Again b b' s cursor)
include h

theorem Again.moved (top : Nat) : Moved b { b' with inUndo := false, undoTop := top } s cursor :=
  ⟨h.holds.of_eq rfl rfl rfl, h.dirty, rfl, h.cursor, h.mark, h.markActive⟩

theorem Again.recorded (hstack : b.undoStack = some stack) (hlayout : Layout past future stack)
    (htop : top = past.length) :
    Recorded { b' with inUndo := false, undoTop := top } past future := by
  refine ⟨htop, ?_⟩
  simp only [h.stack, hstack]
  exact hlayout

end

theorem deleteAgain_eq (h : Holds b s) (hlen : r.len ≠ 0) (hin : r.pos + r.len ≤ s.length) :
    ∃ b', deleteAgain { b with inUndo := true } r = some b' ∧
      Again b b' (removeAt s r.pos r.len) r.pos := by
  have hsize := h.size
  have hslen := h.length_eq
  have hbusy : Holds { b with inUndo := true } s := h.of_eq rfl rfl rfl
  have hpos : r.pos < s.length := by omega
  have hsum : r.pos + r.len < 2 ^ 64 := by omega
  obtain ⟨data, hi, heq, hholds⟩ := bufferDelete_eq hbusy hlen hpos hsum
  unfold deleteAgain
  rw [heq]
  exact ⟨_, rfl, hholds _ _, rfl, rfl, rfl, rfl, rfl, rfl⟩

theorem insertAgain_eq (h : Holds b s) (fresh : Fresh) (htext : r.text = some text)
    (hne : text ≠ []) (hfits : s.length + text.length + gapGrow + 1 < 2 ^ 64)
    (hend : r.pos + r.len < 2 ^ 64) :
    ∃ b', insertAgain fresh { b with inUndo := true } r = some b' ∧
      Again b b' (insertAt s r.pos text) (r.pos + r.len) := by
  have hbusy : Holds { b with inUndo := true } s := h.of_eq rfl rfl rfl
  obtain ⟨data, lo, hi, heq, hholds⟩ := bufferInsert_eq hbusy fresh r.pos hne hfits
  unfold insertAgain insertRecord
  simp only [htext, heq, u64_of_lt hend]
  exact ⟨_, rfl, hholds _ _, rfl, rfl, rfl, rfl, rfl, rfl⟩

section

variable (fresh : Fresh) (hfit : r.Fits s)
include hfit

/-- **Undo gives the text before the last edit back.** -/
theorem undo_step (h : Holds b (r.redone s)) (hrec : Recorded b (past ++ [r]) future) :
    ∃ b', bufferUndo fresh b = some (0, b') ∧ Moved b b' s r.cursorBefore ∧
      Recorded b' past (r :: future) := by
  obtain ⟨stack, hstack, hlayout⟩ := hrec.stack_of_ne_nil (by simp)
  have htop : b.undoTop = past.length + 1 := by
    rw [hrec.top]
    simp
  have hsize := length_redone hfit
  have hdone (b' : Buffer) (hagain : Again b b' s r.cursorBefore) :
      ∃ b'', some ((0 : Int), { b' with inUndo := false, undoTop := b'.undoTop - 1 }) =
        some (0, b'') ∧
        Moved b b'' s r.cursorBefore ∧ Recorded b'' past (r :: future) := by
    refine ⟨_, rfl, hagain.moved _, hagain.recorded hstack (layout_shift.mp hlayout) ?_⟩
    rw [hagain.top, htop]
    rfl
  unfold bufferUndo
  rw [if_neg (by omega), hrec.last]
  rcases hfit.cases with ⟨pos, text, rfl, hne, hpos, hfits⟩ | ⟨pos, len, rfl, hlen, hin, hsmall⟩
  · obtain ⟨b', heq, hagain⟩ := deleteAgain_eq (r := ⟨.insert, pos, some text, text.length⟩) h
      (fun hzero => hne (length_eq_zero_iff.mp hzero))
      (by rw [hsize.1]; exact Nat.add_le_add_right hpos _)
    have hback : removeAt (insertAt s pos text) pos text.length = s := removeAt_insertAt hpos
    simp only [bind_eq_bind, bind_some, heq]
    exact hdone b' (hback ▸ hagain)
  · have htaken : ((s.drop pos).take len).length = len := by
      rw [length_take, length_drop]
      omega
    obtain ⟨b', heq, hagain⟩ :=
      insertAgain_eq (r := ⟨.delete, pos, some ((s.drop pos).take len), len⟩) h
      fresh rfl (fun hnil => hlen (by rw [← htaken, hnil]; rfl))
      (by rw [hsize.1]; simp only; omega) (by simp only; omega)
    have hback : insertAt (removeAt s pos len) pos ((s.drop pos).take len) = s :=
      insertAt_removeAt (by omega)
    simp only [bind_eq_bind, bind_some, heq]
    exact hdone b' (hback ▸ hagain)

/-- **Redo makes the first undone edit again.** -/
theorem redo_step (h : Holds b s) (hrec : Recorded b past (r :: future)) :
    ∃ b', bufferRedo fresh b = some (0, b') ∧ Moved b b' (r.redone s) r.cursorAfter ∧
      Recorded b' (past ++ [r]) future := by
  obtain ⟨stack, hstack, hlayout⟩ := hrec.stack_of_ne_nil (by simp)
  have hroom : ¬ b.undoTop ≥ b.undoCap := by
    obtain ⟨hlt, -⟩ := List.getElem?_eq_some_iff.mp hlayout.getElem?
    unfold Buffer.undoCap
    rw [hstack, hrec.top]
    exact Nat.not_le.mpr hlt
  have hdone (b' : Buffer) (hagain : Again b b' (r.redone s) r.cursorAfter) :
      ∃ b'', some ((0 : Int), { b' with inUndo := false, undoTop := b'.undoTop + 1 }) =
        some (0, b'') ∧
        Moved b b'' (r.redone s) r.cursorAfter ∧ Recorded b'' (past ++ [r]) future := by
    refine ⟨_, rfl, hagain.moved _, hagain.recorded hstack (layout_shift.mpr hlayout) ?_⟩
    rw [hagain.top, hrec.top]
    simp
  unfold bufferRedo
  rw [if_neg hroom, hrec.first]
  rcases hfit.cases with ⟨pos, text, rfl, hne, hpos, hfits⟩ | ⟨pos, len, rfl, hlen, hin, -⟩
  · obtain ⟨b', heq, hagain⟩ :=
      insertAgain_eq (r := ⟨.insert, pos, some text, text.length⟩) h fresh rfl hne
      hfits (by simp only; omega)
    simp only [bind_eq_bind, bind_some, heq, reduceCtorEq, if_false]
    exact hdone b' hagain
  · obtain ⟨b', heq, hagain⟩ :=
      deleteAgain_eq (r := ⟨.delete, pos, some ((s.drop pos).take len), len⟩) h
      hlen hin
    simp only [bind_eq_bind, bind_some, heq, reduceCtorEq, if_false]
    exact hdone b' hagain

end

end Nv0ken.TextEditor
